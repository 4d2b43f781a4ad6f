import Dataflow.Proofs.Archive.Model

/-! # What an archive is read as

Reading takes each part of an object from the place where writing would put it, and a part that does not fit
is refused: the fields of a record that is read hold what the object writes there. Type tags are compared
too, except that the spans of a wire are read without looking at theirs. So an archive that is read holds the
archive of the model, but for tags of spans. -/

namespace Dataflow
namespace Archive

/-! ### Records within records -/

mutual

/-- Every field of the first record is one of the second, which may hold others, in any order, and has the
    same value there; lists are of the same length. Types are the same where they are among `tags`. -/
def Record.Within (tags : String → Prop) : Record → Record → Prop
  | .mk type fields, other => (tags type → other.type = type) ∧ FieldsWithin tags fields other.fields

def FieldsWithin (tags : String → Prop) : List (String × Entry) → Fields Entry → Prop
  | [], _ => True
  | (name, e) :: rest, others =>
    (∃ f, Fields.get? name others = some f ∧ e.Within tags f) ∧ FieldsWithin tags rest others

def Entry.Within (tags : String → Prop) : Entry → Entry → Prop
  | .value v, .value w => v = w
  | .record r, .record s => r.Within tags s
  | .array items, .array others => ItemsWithin tags items others
  | _, _ => False

def ItemsWithin (tags : String → Prop) : List Record → List Record → Prop
  | [], [] => True
  | r :: rest, s :: others => r.Within tags s ∧ ItemsWithin tags rest others
  | _, _ => False

end

variable {tags : String → Prop} {r s : Record} {name : String} {rs : List Record}

theorem itemsWithin_iff {others : List Record} :
    ItemsWithin tags rs others ↔ List.Forall₂ (Record.Within tags) rs others := by
  induction rs generalizing others with
  | nil => cases others <;> simp [ItemsWithin]
  | cons r rest ih => cases others <;> simp [ItemsWithin, ih]

/-- What a record holds in a field agrees with an entry. -/
def Record.Holds (tags : String → Prop) (r : Record) (name : String) (e : Entry) : Prop :=
  ∃ f, Fields.get? name r.fields = some f ∧ e.Within tags f

theorem within_iff {type : String} {fields : Fields Entry} :
    (Record.mk type fields).Within tags r ↔ (tags type → r.type = type) ∧ ∀ p ∈ fields, r.Holds tags p.1 p.2 := by
  have hfields : FieldsWithin tags fields r.fields ↔ ∀ p ∈ fields, r.Holds tags p.1 p.2 := by
    induction fields with
    | nil => simp [FieldsWithin]
    | cons p rest ih =>
      obtain ⟨name, e⟩ := p
      simp only [FieldsWithin, ih, List.forall_mem_cons, Record.Holds]
  rw [Record.Within, hfields]

/-! ### Values -/

/-- What a value is read as is written as that value. -/
def Exact (α : Type) [Primitive α] : Prop :=
  ∀ (v : Value) (x : α), Primitive.ofValue? v = some x → Primitive.toValue x = .ok v

theorem exact_carrier (k : Primitive.Kind) : Exact k.Carrier := fun _ _ => Primitive.Kind.ofValue?_eq_some.mp

/-- A field that was read holds the value that is written for what was read. -/
theorem holds_of_get {α : Type} [Primitive α] {x : α} {v : Value} (exact : Exact α) (h : r.get α name = .ok x)
    (hv : Primitive.toValue x = .ok v) : r.Holds tags name (.value v) := by
  obtain ⟨w, hw, hread⟩ := get_eq_ok.mp h
  cases (exact w x hread).symm.trans hv
  exact ⟨_, hw, by simp [Entry.Within]⟩

/-- A number that was read can be written. -/
theorem isStorable_of_get {n : Nat} (h : r.get Nat name = .ok n) : isStorable n = true := by
  obtain ⟨v, -, hread⟩ := get_eq_ok.mp h
  have hwritten : Value.ofInt n = .ok v := exact_carrier (.integer .size) v n hread
  rw [Value.ofInt, isSigned_natCast] at hwritten
  by_contra hlarge
  rw [if_neg hlarge] at hwritten
  cases hwritten

theorem holds_nat {n : Nat} (h : r.get Nat name = .ok n) : r.Holds tags name (.value (.int (Int64.ofInt n))) := by
  refine holds_of_get (exact_carrier (.integer .size)) h ?_
  show Value.ofInt n = _
  rw [Value.ofInt, isSigned_natCast, if_pos (isStorable_of_get h)]

theorem holds_record {e : Record} (hfield : Fields.get? name r.fields = some (.record s)) :
    r.Holds tags name (.record e) ↔ e.Within tags s := by
  simp [Record.Holds, hfield, Entry.Within]

theorem holds_array {es : List Record} (hfield : Fields.get? name r.fields = some (.array rs)) :
    r.Holds tags name (.array es) ↔ List.Forall₂ (Record.Within tags) es rs := by
  simp [Record.Holds, hfield, Entry.Within, itemsWithin_iff]

/-- The items of a field, if it has a list. -/
def Record.items (r : Record) (name : String) : List Record :=
  match Fields.get? name r.fields with
  | some (.array items) => items
  | _ => []

/-- The records of the spans of the wire in a field, if it has a wire. -/
def Record.spanItems (r : Record) (name : String) : List Record :=
  match Fields.get? name r.fields with
  | some (.record wire) => wire.items "ranges"
  | _ => []

end Archive

open Archive

theorem ElemType.name_of_ofName {name : String} {t : ElemType} (h : ElemType.ofName name = .ok t) : t.name = name := by
  unfold ofName at h
  split at h <;> cases h <;> rfl

theorem Operation.name_of_ofName {name : String} {op : Operation} (h : Operation.ofName name = .ok op) :
    op.name = name := by
  unfold ofName at h
  split at h <;> cases h <;> rfl

variable {a : Record} {name : String}

/-! ### Spans, wires, outputs and predictors -/

namespace Span
variable {s fresh : Span}

/-- The tag of the record is not looked at. -/
theorem within_of_read (h : Reading.from fresh (Readable.read a) = .ok s) :
    (∀ n ∈ s.numbers, isStorable n = true) ∧
      ∀ tags, s.record.Within tags a ↔ (tags Span.typeName → a.type = Span.typeName) := by
  simp only [Readable.read, from_lift_bind, from_modify_bind, from_modify] at h
  obtain ⟨node, hnode, h⟩ := Result.bind_eq_ok.mp h
  obtain ⟨output, houtput, h⟩ := Result.bind_eq_ok.mp h
  obtain ⟨typeName, htypeName, h⟩ := Result.bind_eq_ok.mp h
  obtain ⟨type, htype, h⟩ := Result.bind_eq_ok.mp h
  obtain ⟨start, hstart, h⟩ := Result.bind_eq_ok.mp h
  obtain ⟨size, hsize, h⟩ := Result.bind_eq_ok.mp h
  cases h
  constructor
  · simp [numbers, isStorable_of_get hnode, isStorable_of_get houtput, isStorable_of_get hstart,
      isStorable_of_get hsize]
  · intro tags
    have hname : a.Holds tags "type" (.value (.text type.name)) :=
      holds_of_get (exact_carrier .text) htypeName (by rw [ElemType.name_of_ofName htype]; rfl)
    simp [record, within_iff, holds_nat hnode, holds_nat houtput, hname, holds_nat hstart, holds_nat hsize]

end Span

namespace Wire
variable {w fresh : Wire} {t : ElemType}

theorem spans_of_ofSpans {spans : List Span} (h : ofSpans spans = .ok w) : w.spans = spans := by
  unfold ofSpans at h
  split at h
  · cases h
    rfl
  · split at h <;> cases h
    rfl

theorem within_of_read (h : Reading.from fresh (Readable.read a) = .ok w) :
    (∀ n ∈ w.numbers, isStorable n = true) ∧ ∀ tags, w.record.Within tags a ↔
      (tags Wire.typeName → a.type = Wire.typeName) ∧
        (tags Span.typeName → ∀ item ∈ a.items "ranges", item.type = Span.typeName) := by
  obtain ⟨items, hitems, h⟩ := from_lift_eq_ok.mp h
  obtain ⟨spans, hspans, h⟩ := from_lift_eq_ok.mp h
  obtain ⟨w', hw, h⟩ := from_lift_eq_ok.mp h
  cases h
  rw [← spans_of_ofSpans hw, Result.mapM_eq_ok] at hspans
  have hfield := array_eq_ok.mp hitems
  constructor
  · intro n hn
    obtain ⟨s, hs, hn⟩ := List.mem_flatMap.mp hn
    obtain ⟨item, -, hread⟩ := forall₂_of_mem hspans.flip s hs
    exact (Span.within_of_read hread).1 n hn
  · intro tags
    have hwithin : ∀ s item, Reading.from (default : Span) (Readable.read item) = .ok s →
        (s.record.Within tags item ↔ (tags Span.typeName → item.type = Span.typeName)) :=
      fun s item hread => (Span.within_of_read hread).2 tags
    have hranges : a.Holds tags "ranges" (.array (w.spans.map Span.record)) ↔
        (tags Span.typeName → ∀ item ∈ items, item.type = Span.typeName) := by
      rw [holds_array hfield, List.forall₂_map_left_iff, forall₂_imp_iff hspans.flip hwithin,
        forall₂_right_iff hspans.flip]
    simp [record, within_iff, hranges, Record.items, hfield]

/-- A node reads a wire of the right type, whatever its spans are tagged with. -/
theorem holds_of_wire (h : a.wire name t = .ok w) :
    (∀ n ∈ w.numbers, isStorable n = true) ∧ ∀ tags, a.Holds tags name (.record w.record) ↔
      (tags Span.typeName → ∀ item ∈ a.spanItems name, item.type = Span.typeName) := by
  obtain ⟨w', hw, h⟩ := Result.bind_eq_ok.mp h
  obtain ⟨-, h⟩ := Result.guard_eq_ok.mp h
  cases h
  obtain ⟨s, hfield, htype, hread⟩ := object_eq_ok.mp hw
  obtain ⟨hstorable, hwithin⟩ := within_of_read hread
  refine ⟨hstorable, fun tags => ?_⟩
  replace htype : s.type = Wire.typeName := htype
  simp [holds_record hfield, hwithin, htype, Record.spanItems, hfield]

end Wire

namespace Output
variable {o fresh : Output}

theorem within_of_read (h : Reading.from fresh (Readable.read a) = .ok o) :
    isStorable o.size = true ∧ o.name = fresh.name ∧
      ∀ tags, o.record.Within tags a ↔ (tags Output.typeName → a.type = Output.typeName) := by
  simp only [Readable.read, from_lift_bind, from_modify_bind, from_modify] at h
  obtain ⟨typeName, htypeName, h⟩ := Result.bind_eq_ok.mp h
  obtain ⟨type, htype, h⟩ := Result.bind_eq_ok.mp h
  obtain ⟨size, hsize, h⟩ := Result.bind_eq_ok.mp h
  cases h
  refine ⟨isStorable_of_get hsize, rfl, fun tags => ?_⟩
  have hname : a.Holds tags "type" (.value (.text type.name)) :=
    holds_of_get (exact_carrier .text) htypeName (by rw [ElemType.name_of_ofName htype]; rfl)
  simp [record, within_iff, hname, holds_nat hsize]

theorem holds_of_object (h : a.object name fresh = .ok o) :
    isStorable o.size = true ∧ o.name = fresh.name ∧ ∀ tags, a.Holds tags name (.record o.record) := by
  obtain ⟨s, hfield, htype, hread⟩ := object_eq_ok.mp h
  obtain ⟨hstorable, hname, hwithin⟩ := within_of_read hread
  exact ⟨hstorable, hname, fun tags => (holds_record hfield).mpr ((hwithin tags).mpr fun _ => htype)⟩

/-- The outputs of a node are those that the record holds. -/
theorem holds_of_checkOutput (h : a.checkOutput o = .ok ()) :
    isStorable o.size = true ∧ ∀ tags, a.Holds tags o.name (.record o.record) := by
  obtain ⟨stored, hstored, h⟩ := Result.bind_eq_ok.mp h
  obtain ⟨hstorable, hname, hholds⟩ := holds_of_object hstored
  by_cases htype : stored.type = o.type <;> by_cases hsize : stored.size = o.size <;> simp [htype, hsize] at h
  obtain rfl : stored = o := by
    cases stored
    cases o
    simp_all
  exact ⟨hstorable, hholds⟩

end Output

theorem LinearPredictor.holds_of_object {p fresh : LinearPredictor} (h : a.object name fresh = .ok p)
    (tags : String → Prop) : a.Holds tags name (.record p.record) := by
  obtain ⟨s, hfield, htype, hread⟩ := object_eq_ok.mp h
  simp only [Readable.read, from_lift_bind, from_modify_bind, from_modify] at hread
  obtain ⟨weights, hweights, hread⟩ := Result.bind_eq_ok.mp hread
  obtain ⟨bias, hbias, hread⟩ := Result.bind_eq_ok.mp hread
  cases hread
  have hwithin : ∀ p ∈ (⟨weights, bias⟩ : LinearPredictor).record.fields, s.Holds tags p.1 p.2 := by
    simp only [record, Record.fields, List.forall_mem_cons]
    exact ⟨holds_of_get (exact_carrier .reals) hweights rfl, holds_of_get (exact_carrier .real) hbias rfl, by simp⟩
  exact (holds_record hfield).mpr (within_iff.mpr ⟨fun _ => htype, hwithin⟩)

/-! ### Nodes -/

/-- Every span that feeds a node is tagged as one in the record that holds the node. -/
def Node.SpansTagged {κ : Type} [Node κ] (n : κ) (a : Record) : Prop :=
  ∀ i ∈ Node.inputs n, ∀ item ∈ a.spanItems i.name, item.type = Span.typeName

namespace Builtin
variable {n fresh : Builtin}

/-- The fields of a node beside those of its inputs and outputs. -/
def extras : Builtin → Fields Entry
  | input .. | dot .. => []
  | constant x => [("values", .value x.value)]
  | binary _ op _ _ => [("operation", .value (.text op.name))]
  | linear _ p => [("predictor", .record p.record)]

theorem mem_fields {p : String × Entry} : p ∈ n.fields ↔ (∃ i ∈ n.inputs, p = (i.name, .record i.wire.record)) ∨
    (∃ o ∈ n.outputs, p = (o.name, .record o.record)) ∨ p ∈ n.extras := by
  cases n <;> simp [fields, inputs, outputs, extras, mainOutput, weightedOutput] <;> grind

/-- What a record holds of a node that was read from it. -/
structure ReadFrom (n : Builtin) (a : Record) : Prop where
  storable : ∀ k ∈ Node.numbers n, isStorable k = true
  holds : ∀ tags, (∀ p ∈ n.fields, a.Holds tags p.1 p.2) ↔ (tags Span.typeName → Node.SpansTagged n a)

theorem readFrom_of_parts (hinputs : ∀ i ∈ n.inputs, a.wire i.name i.type = .ok i.wire)
    (houtputs : ∀ o ∈ n.outputs, isStorable o.size = true ∧ ∀ tags, a.Holds tags o.name (.record o.record))
    (hextras : ∀ p ∈ n.extras, ∀ tags, a.Holds tags p.1 p.2) : n.ReadFrom a where
  storable k hk := by
    rcases List.mem_append.mp hk with hk | hk
    · obtain ⟨i, hi, hk⟩ := List.mem_flatMap.mp hk
      exact (Wire.holds_of_wire (hinputs i hi)).1 k hk
    · obtain ⟨o, ho, rfl⟩ := List.mem_map.mp hk
      exact (houtputs o ho).1
  holds tags := by
    have hwire : ∀ i ∈ n.inputs, a.Holds tags i.name (.record i.wire.record) ↔
        (tags Span.typeName → ∀ item ∈ a.spanItems i.name, item.type = Span.typeName) :=
      fun i hi => (Wire.holds_of_wire (hinputs i hi)).2 tags
    constructor
    · intro h htags i hi
      exact (hwire i hi).mp (h (i.name, .record i.wire.record) (mem_fields.mpr (.inl ⟨i, hi, rfl⟩))) htags
    · intro h p hp
      rcases mem_fields.mp hp with ⟨i, hi, rfl⟩ | ⟨o, ho, rfl⟩ | hp
      · exact (hwire i hi).mpr fun htags => h htags i hi
      · exact (houtputs o ho).2 tags
      · exact hextras p hp tags

/-- A node that is read is of the kind that it is read into. -/
theorem Reads.readFrom (h : Reads a fresh n) : n.ReadFrom a ∧ n.typeName = fresh.typeName := by
  have houtputs {n : Builtin} (hcheck : Checked a n) : ∀ o ∈ n.outputs, isStorable o.size = true ∧
      ∀ tags, a.Holds tags o.name (.record o.record) := fun o ho => Output.holds_of_checkOutput (hcheck o ho)
  cases h with
  | @input t size out hout =>
    obtain ⟨hstorable, hname, hholds⟩ := Output.holds_of_object hout
    refine ⟨readFrom_of_parts (fun _ hi => by cases hi) (fun o ho => ?_) (fun _ hp => by cases hp), rfl⟩
    obtain rfl : o = out := by
      rw [List.mem_singleton.mp ho]
      cases out
      cases hname
      rfl
    exact ⟨hstorable, fun tags => hname ▸ hholds tags⟩
  | @constant value x htype hvalues hcheck =>
    refine ⟨readFrom_of_parts (fun _ hi => by cases hi) (houtputs hcheck) (fun p hp tags => ?_), ?_⟩
    · rw [List.mem_singleton.mp hp]
      cases x with
      | real => exact holds_of_get (exact_carrier .reals) hvalues rfl
      | int => exact holds_of_get (exact_carrier .ints) hvalues rfl
      | bool => exact holds_of_get (exact_carrier .bools) hvalues rfl
    · exact congrArg (fun t : ElemType => s!"ConstantNode<{t.name}>") htype
  | dot hx hy _ hcheck =>
    refine ⟨readFrom_of_parts (fun i hi => ?_) (houtputs hcheck) (fun _ hp => by cases hp), rfl⟩
    rcases List.mem_pair.mp hi with rfl | rfl
    · exact hx
    · exact hy
  | binary hx hy hname hop _ hcheck =>
    refine ⟨readFrom_of_parts (fun i hi => ?_) (houtputs hcheck) (fun p hp tags => ?_), rfl⟩
    · rcases List.mem_pair.mp hi with rfl | rfl
      · exact hx
      · exact hy
    · rw [List.mem_singleton.mp hp]
      exact holds_of_get (exact_carrier .text) hname (by rw [Operation.name_of_ofName hop]; rfl)
  | linear hx hp _ hcheck =>
    refine ⟨readFrom_of_parts (fun i hi => ?_) (houtputs hcheck) (fun q hq tags => ?_), rfl⟩
    · rw [List.mem_singleton.mp hi]
      exact hx
    · rw [List.mem_singleton.mp hq]
      exact LinearPredictor.holds_of_object hp tags

theorem typeName_of_mem_registry : ∀ p ∈ registry.entries, p.2.typeName = p.1 := by decide +kernel

/-- A node is of the type that its record is tagged with. -/
theorem within_of_instantiate (h : registry.instantiate a = .ok n) :
    (∀ k ∈ Node.numbers n, isStorable k = true) ∧
      ∀ tags, n.record.Within tags a ↔ (tags Span.typeName → Node.SpansTagged n a) := by
  obtain ⟨fresh, hcreate, hreads⟩ := instantiate_inv h
  have hfresh : fresh.typeName = a.type := by
    unfold Registry.create at hcreate
    split at hcreate
    case h_1 x hx =>
      cases hcreate
      obtain ⟨l, r, hl, -⟩ := List.lookup_eq_some_iff.mp hx
      exact typeName_of_mem_registry (a.type, fresh) (by simp [hl])
    case h_2 => cases hcreate
  obtain ⟨hholds, htype⟩ := hreads.readFrom
  refine ⟨hholds.storable, fun tags => ?_⟩
  rw [record, within_iff, hholds.holds tags]
  exact ⟨fun h => h.2, fun h => ⟨fun _ => (htype.trans hfresh).symm, h⟩⟩

end Builtin

/-! ### Models -/

namespace Model
variable {m : Model Builtin}

/-- Every span in an archive of the model is tagged as one. -/
def SpansTagged (m : Model Builtin) (a : Record) : Prop := List.Forall₂ Node.SpansTagged m.nodes (a.items "nodes")

/-- A model that was read can be archived, and the first archive holds that of the model: the same fields with the same
    values and lists of the same lengths, and the same type tags too, but for those of spans. Those are the same just
    when the first archive has every span tagged as one. -/
theorem archive_within_unarchived (h : unarchive Builtin.registry a = .ok m) :
    ∃ r, archive m = .ok r ∧ r.Within (· ≠ Span.typeName) a ∧ (r.Within (fun _ => True) a ↔ m.SpansTagged a) := by
  obtain ⟨htype, hrecord⟩ := unarchive_eq_ok.mp h
  obtain ⟨-, items, hfield, hnodes⟩ := ofRecord_inv hrecord
  have hstorable : ∀ k ∈ m.numbers, isStorable k = true := by
    intro k hk
    obtain ⟨n, hn, hk⟩ := List.mem_flatMap.mp hk
    obtain ⟨item, -, hread⟩ := forall₂_of_mem hnodes.flip n hn
    exact (Builtin.within_of_instantiate hread).1 k hk
  have hwithin : ∀ tags, m.record.Within tags a ↔ (tags Span.typeName → m.SpansTagged a) := by
    intro tags
    have hnodes' : a.Holds tags "nodes" (.array (m.nodes.map Builtin.record)) ↔
        (tags Span.typeName → m.SpansTagged a) := by
      rw [holds_array hfield, List.forall₂_map_left_iff, SpansTagged, Record.items, hfield]
      exact forall₂_imp_iff hnodes.flip fun n item hread => (Builtin.within_of_instantiate hread).2 tags
    simp [record, within_iff, hnodes', htype]
  refine ⟨m.record, ?_, (hwithin _).mpr fun hne => absurd rfl hne, ?_⟩
  · rw [m.archive_eq]
    exact stored_eq_ok.mpr ⟨hstorable, rfl⟩
  · rw [hwithin]
    simp

/-- The product of an integer with itself, where one of the two spans that read it is tagged as an output. -/
def strayTag : Record :=
  let wire (tag : String) : Entry :=
    .record (.mk Wire.typeName [("ranges", .array [.mk tag (Span.whole ⟨0, 0⟩ .int 1).record.fields])])
  let product : Record := .mk "DotProductNode<int>"
    [("input1", wire Output.typeName), ("input2", wire Span.typeName),
      ("output", .record (⟨"output", .int, 1⟩ : Output).record)]
  .mk Model.typeName [("nodes", .array [(Builtin.constant (.int [2])).record, product])]

theorem strayTag_read : ∃ m r, unarchive Builtin.registry strayTag = .ok m ∧ archive m = .ok r ∧
    r.Within (· ≠ Span.typeName) strayTag ∧ ¬ r.Within (fun _ => True) strayTag := by
  let whole := Wire.ofSpan (.whole ⟨0, 0⟩ .int 1)
  have hread : (unarchive Builtin.registry strayTag).map (·.nodes) =
      .ok [.constant (.int [2]), .dot .int whole whole] := by decide +kernel
  rcases hm : unarchive Builtin.registry strayTag with e | m
  · rw [hm] at hread
    cases hread
  rw [hm] at hread
  have hnodes : m.nodes = [.constant (.int [2]), .dot .int whole whole] := Except.ok.inj hread
  obtain ⟨r, hr, hwithin, htagged⟩ := archive_within_unarchived hm
  refine ⟨m, r, rfl, hr, hwithin, fun h => ?_⟩
  have htags := htagged.mp h
  rw [SpansTagged, hnodes] at htags
  obtain _ | ⟨-, hnodes⟩ := htags
  obtain _ | ⟨hproduct, -⟩ := hnodes
  have htag : Output.typeName = Span.typeName := hproduct _ List.mem_cons_self _ List.mem_cons_self
  exact absurd htag (by decide)

end Model

end Dataflow
