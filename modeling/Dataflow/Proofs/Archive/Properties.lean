import Dataflow.Archive.Reading
import Dataflow.Proofs.Archive.Reading
import Dataflow.Proofs.Description.Editing
import Dataflow.Proofs.Description.Shapes

/-! # What is read back through a shape

A description is written without knowing what it describes, and read back through a shape of it. What is written for
a property is read as that property where the shape declares it; under an open one the record alone is described,
which has the names, types and values but no documentation. -/

namespace Dataflow

namespace Description

/-- A description of a primitive type has no properties. -/
def Plain (d : Description) : Prop := d.isPrimitive = true → d.properties = []

/-- A description of a primitive type has a value. -/
def Filled (d : Description) : Prop := d.isPrimitive = true → d.value.isSome = true

theorem Consistent.value_eq_none {d : Description} (h : d.Consistent) (hd : d.isPrimitive = false) :
    d.value = none := by
  have hprimitive : ∀ v : Value, Value.isTypeName v.type = true := by
    rintro (_ | _) <;> rfl
  rcases hv : d.value with _ | v
  · rfl
  · rw [isPrimitive, ← h.typed v hv, hprimitive v] at hd
    cases hd

end Description

open Description

namespace Archive
variable {p : Description} {ps : Fields Description} {name : String} {e : Entry} {es before after : Fields Entry}
    {r : Record}

/-! ### What is written for a property -/

theorem ofProperty_primitive (h : p.isPrimitive = true) :
    ofProperty name p = .ok e ↔ ∃ v, p.value = some v ∧ e = .value v := by
  obtain ⟨type, doc, value, properties⟩ := p
  change Value.isTypeName type = true at h
  cases value <;> simp [ofProperty, h, Description.value, eq_comm]

theorem ofProperty_composite (h : p.isPrimitive = false) :
    ofProperty name p = .ok e ↔ ∃ es, ofProperties p.properties = .ok es ∧ e = .record (.mk p.type es) := by
  obtain ⟨type, doc, value, properties⟩ := p
  change Value.isTypeName type = false at h
  unfold ofProperty
  simp only [h, Bool.false_eq_true, if_false, Result.bind_eq_ok, Result.pure_eq, Except.ok.injEq]
  exact exists_congr fun es => and_congr_right fun _ => eq_comm

theorem ofProperties_eq_ok :
    ofProperties ps = .ok es ↔ List.Forall₂ (fun q f => f.1 = q.1 ∧ ofProperty q.1 q.2 = .ok f.2) ps es := by
  induction ps generalizing es with
  | nil => simp [ofProperties, eq_comm]
  | cons q rest ih =>
    obtain ⟨name, p⟩ := q
    simp only [ofProperties, Result.bind_eq_ok, Result.pure_eq, Except.ok.injEq, ih, List.forall₂_cons_left_iff]
    constructor
    · rintro ⟨e, he, fs, hfs, rfl⟩
      exact ⟨(name, e), fs, ⟨rfl, he⟩, hfs, rfl⟩
    · rintro ⟨⟨_, e⟩, fs, ⟨rfl, he⟩, hfs, rfl⟩
      exact ⟨e, he, fs, hfs, rfl⟩

theorem names_ofProperties (h : ofProperties ps = .ok es) : es.names = ps.names := by
  have hall := ofProperties_eq_ok.mp h
  clear h
  induction hall with
  | nil => rfl
  | cons h _ ih => exact congrArg₂ List.cons h.1 ih

theorem exists_ofProperties_iff : (∃ es, ofProperties ps = .ok es) ↔ ∀ q ∈ ps, ∃ e, ofProperty q.1 q.2 = .ok e := by
  induction ps with
  | nil => simp [ofProperties]
  | cons q rest ih =>
    obtain ⟨name, p⟩ := q
    rw [List.forall_mem_cons, ← ih]
    simp only [ofProperties, Result.bind_eq_ok, Result.pure_eq, Except.ok.injEq]
    exact ⟨fun ⟨_, e, he, es, hes, _⟩ => ⟨⟨e, he⟩, es, hes⟩, fun ⟨⟨e, he⟩, es, hes⟩ => ⟨_, e, he, es, hes, rfl⟩⟩

/-- A property can be written just if no primitive value is missing in it. -/
theorem exists_ofProperty_iff (h : p.Everywhere Plain) : (∃ e, ofProperty name p = .ok e) ↔ p.Everywhere Filled := by
  induction h generalizing name with
  | @intro p plain _ ih =>
    cases hp : p.isPrimitive
    · have hproperties : (∃ es, ofProperties p.properties = .ok es) ↔ ∀ q ∈ p.properties, q.2.Everywhere Filled := by
        rw [exists_ofProperties_iff]
        exact forall₂_congr fun q hq => ih q hq
      simp only [ofProperty_composite hp]
      constructor
      · rintro ⟨_, es, hes, rfl⟩
        exact .intro (fun hprim => by simp [hp] at hprim) (hproperties.mp ⟨es, hes⟩)
      · intro hfilled
        obtain ⟨es, hes⟩ := hproperties.mpr hfilled.inside
        exact ⟨_, es, hes, rfl⟩
    · simp only [ofProperty_primitive hp]
      constructor
      · rintro ⟨_, v, hv, rfl⟩
        refine .intro (fun _ => by rw [hv]; rfl) ?_
        rw [plain hp]
        nofun
      · intro hfilled
        obtain ⟨v, hv⟩ := Option.isSome_iff_exists.mp (hfilled.here hp)
        exact ⟨_, v, hv, rfl⟩

/-! ### What is read for a property -/

theorem describeFields_ofProperties (h : ofProperties ps = .ok es)
    (hps : ∀ q ∈ ps, ∀ e, ofProperty q.1 q.2 = .ok e → e.describe = q.2.bare) : describeFields es = bareAll ps := by
  have hall := ofProperties_eq_ok.mp h
  clear h
  induction hall with
  | nil => rfl
  | @cons q f _ _ hqf _ ih =>
    obtain ⟨name, p⟩ := q
    obtain ⟨_, e⟩ := f
    obtain ⟨rfl, he⟩ := hqf
    rw [describeFields, bareAll, hps _ List.mem_cons_self e he, ih fun q hq => hps q (List.mem_cons_of_mem _ hq)]

/-- The record alone tells everything about a property but its documentation. -/
theorem describe_ofProperty (hconsistent : p.Everywhere Consistent) (hplain : p.Everywhere Plain)
    (he : ofProperty name p = .ok e) : e.describe = p.bare := by
  induction hconsistent generalizing name e with
  | @intro p consistent _ ih =>
    have hbare : p.bare = .mk p.type "" p.value (bareAll p.properties) := by
      cases p
      rfl
    rw [hbare]
    cases hp : p.isPrimitive
    · obtain ⟨es, hes, rfl⟩ := (ofProperty_composite hp).mp he
      rw [Entry.describe, consistent.value_eq_none hp]
      rw [describeFields_ofProperties hes fun q hq e he => ih q hq (hplain.inside q hq) he]
    · obtain ⟨v, hv, rfl⟩ := (ofProperty_primitive hp).mp he
      rw [Entry.describe, hv, hplain.here hp, consistent.typed v hv]
      rfl

/-- In the field of each property stands what is written for it. -/
def Record.Stores (r : Record) (ps : Fields Description) : Prop :=
  ∀ q ∈ ps, ∃ e, ofProperty q.1 q.2 = .ok e ∧ Fields.get? q.1 r.fields = some e

theorem stores_of_entries (h : ofProperties ps = .ok es) (hr : ∀ f ∈ es, Fields.get? f.1 r.fields = some f.2) :
    r.Stores ps := by
  intro q hq
  obtain ⟨⟨_, e⟩, hmem, rfl, he⟩ := forall₂_of_mem (ofProperties_eq_ok.mp h) q hq
  exact ⟨e, he, hr _ hmem⟩

theorem fillAll_outlineAll {isOpen : List String → Bool} (hr : r.Stores ps)
    (hps : ∀ q ∈ ps, ∀ (isOpen : List String → Bool) (e : Entry), ofProperty q.1 q.2 = .ok e →
      Fields.get? q.1 r.fields = some e → r.fillProperty q.1 (q.2.outline isOpen) = .ok (q.2.recovered isOpen)) :
    r.fillAll (outlineAll isOpen ps) = .ok (recoveredAll isOpen ps) := by
  induction ps with
  | nil => rfl
  | cons q rest ih =>
    obtain ⟨name, p⟩ := q
    obtain ⟨e, he, hfield⟩ := hr (name, p) List.mem_cons_self
    have hfirst := hps (name, p) List.mem_cons_self (fun path => isOpen (name :: path)) e he hfield
    have hrest := ih (fun q hq => hr q (List.mem_cons_of_mem _ hq)) fun q hq => hps q (List.mem_cons_of_mem _ hq)
    rw [outlineAll, Record.fillAll, hfirst, Result.ok_bind, hrest, recoveredAll]
    rfl

theorem fillProperty_primitive {type doc : String} {v : Value} {value : Option Value}
    (htype : Value.isTypeName type = true) (hfield : Fields.get? name r.fields = some (.value v)) :
    r.fillProperty name (.mk type doc value ps) = (Description.mk type doc value ps).setValue v := by
  rw [Record.fillProperty, if_pos htype, value_eq_ok.mpr hfield, Result.ok_bind]

theorem fillProperty_composite {type doc : String} {value : Option Value} (htype : Value.isTypeName type = false)
    (hfield : Fields.get? name r.fields = some (.record (.mk type es))) :
    r.fillProperty name (.mk type doc value ps) = if ps.isEmpty then .ok (.mk type doc value (describeFields es))
      else do return .mk type doc value (← (Record.mk type es).fillAll ps) := by
  rw [Record.fillProperty, if_neg (Bool.not_eq_true _ ▸ htype), record_eq_ok.mpr hfield, Result.ok_bind]
  exact if_neg (not_not.mpr rfl)

/-- Of an open property everything is read but its documentation, which is the declared one. -/
theorem fillProperty_blank (hconsistent : p.Everywhere Consistent) (hplain : p.Everywhere Plain)
    (he : ofProperty name p = .ok e) (hfield : Fields.get? name r.fields = some e) :
    r.fillProperty name (blank p.type p.doc) = .ok (.mk p.type p.doc p.value (bareAll p.properties)) := by
  cases hp : p.isPrimitive
  · obtain ⟨es, hes, rfl⟩ := (ofProperty_composite hp).mp he
    have hfields : describeFields es = bareAll p.properties :=
      describeFields_ofProperties hes fun q hq e he =>
        describe_ofProperty (hconsistent.inside q hq) (hplain.inside q hq) he
    rw [blank, fillProperty_composite hp hfield, hconsistent.here.value_eq_none hp, ← hfields]
    rfl
  · obtain ⟨v, hv, rfl⟩ := (ofProperty_primitive hp).mp he
    rw [blank, fillProperty_primitive hp hfield, setValue, if_pos (hconsistent.here.typed v hv), hv, hplain.here hp,
      bareAll]

/-- What is written for a property is read as that property, but for the documentation of what is under open ones. -/
theorem fillProperty_outline {isOpen : List String → Bool} (hconsistent : p.Everywhere Consistent)
    (hplain : p.Everywhere Plain) (he : ofProperty name p = .ok e) (hfield : Fields.get? name r.fields = some e) :
    r.fillProperty name (p.outline isOpen) = .ok (p.recovered isOpen) := by
  induction hconsistent generalizing isOpen name r e with
  | @intro p consistent inside ih =>
    -- A shape without properties does not tell an open description from one that had none.
    by_cases hblank : isOpen [] = true ∨ p.properties = []
    · rw [outline_eq_blank hblank, recovered_eq_bareAll hblank]
      exact fillProperty_blank (.intro consistent inside) hplain he hfield
    · obtain ⟨hclosed, hproperties⟩ := not_or.mp hblank
      have hp : p.isPrimitive = false := by
        rw [← Bool.not_eq_true]
        exact fun hp => hproperties (hplain.here hp)
      obtain ⟨es, hes, rfl⟩ := (ofProperty_composite hp).mp he
      have hdistinct : (Fields.names es).Nodup := names_ofProperties hes ▸ consistent.distinct
      have hstores : (Record.mk p.type es).Stores p.properties :=
        stores_of_entries hes fun f hf => Fields.get?_of_mem hdistinct hf
      have hall : (Record.mk p.type es).fillAll (outlineAll isOpen p.properties) =
          .ok (recoveredAll isOpen p.properties) :=
        fillAll_outlineAll hstores fun q hq isOpen e he hfield => ih q hq (hplain.inside q hq) he hfield
      have hsome : (outlineAll isOpen p.properties).isEmpty = false := by
        rcases hlist : p.properties with _ | ⟨⟨_, _⟩, _⟩
        · exact absurd hlist hproperties
        · rfl
      rw [outline_eq_mk hclosed, recovered_eq_mk hclosed, fillProperty_composite hp hfield, hsome, hall,
        consistent.value_eq_none hp]
      rfl

/-! ### Writing and reading -/

/-- The entries of all properties are put one after the other, or one of them has none. -/
theorem runFrom_ofProperty :
    runFrom before (ps.forM fun (name, p) => do Writing.put name (← liftM (ofProperty name p))) = (.ok (), after) ↔
      ∃ es, ofProperties ps = .ok es ∧ after = es.foldl (fun acc f => Fields.put f.1 f.2 acc) before := by
  rw [List.forM_eq_forM]
  induction ps generalizing before with
  | nil => simp [ofProperties, eq_comm]
  | cons q rest ih =>
    obtain ⟨name, p⟩ := q
    rw [List.forM_cons, ofProperties]
    dsimp only
    rcases he : ofProperty name p with err | e
    · rw [runFrom_bind_error (runFrom_bind_error (runFrom_lift _))]
      simp
    · have hput : runFrom before (do Writing.put name (← liftM (Except.ok e : Result Entry))) =
          (.ok (), before.put name e) := rfl
      rw [runFrom_bind_ok hput]
      refine ih.trans ?_
      simp only [Result.ok_bind, Result.bind_eq_ok, Result.pure_eq, Except.ok.injEq]
      constructor
      · rintro ⟨es, hes, rfl⟩
        exact ⟨_, ⟨es, hes, rfl⟩, rfl⟩
      · rintro ⟨_, ⟨es, hes, rfl⟩, rfl⟩
        exact ⟨es, hes, rfl⟩

end Archive

namespace Description
open Archive
variable {d : Description}

/-- Writing the properties of a composite description succeeds just if each primitive one, at any depth, has a value.
    From a record that has in their fields what was written, and may hold anything else, every shape is then filled
    to the same description, except that there is no documentation under open properties. -/
theorem recovered_through_shapes (hconsistent : d.Everywhere Consistent) (hplain : d.Everywhere Plain)
    (hroot : d.isPrimitive = false) (before : Fields Entry) :
    ((runFrom before (Writing.properties d)).1 = .ok () ↔ d.Everywhere Filled) ∧
      (∀ (after : Fields Entry) (r : Record) (isOpen : List String → Bool),
        runFrom before (Writing.properties d) = (.ok (), after) →
        (∀ name ∈ d.properties.names, Fields.get? name r.fields = Fields.get? name after) → isOpen [] = false →
          r.fill (d.outline isOpen) = .ok (d.recovered isOpen)) ∧
      d.recovered (fun _ => false) = d ∧ ∀ isOpen, (d.recovered isOpen).bare = d.bare ∧
        ∀ path p, d.atPath path = .ok p → ∃ q, (d.recovered isOpen).atPath path = .ok q ∧
          (UnderOpen isOpen path → q.doc = "") ∧ (¬ UnderOpen isOpen path → q.doc = p.doc) := by
  refine ⟨?_, fun after r isOpen hrun hr hopen => ?_, recovered_of_closed d, fun isOpen =>
    ⟨bare_recovered isOpen d, fun path p => doc_recovered⟩⟩
  · have hfilled : (∃ e, ofProperty "" d = .ok e) ↔ d.Everywhere Filled := exists_ofProperty_iff hplain
    rw [← hfilled]
    simp only [ofProperty_composite hroot]
    constructor
    · intro h
      obtain ⟨es, hes, -⟩ := runFrom_ofProperty.mp (Prod.ext h rfl)
      exact ⟨_, es, hes, rfl⟩
    · rintro ⟨_, es, hes, -⟩
      have hrun : runFrom before (Writing.properties d) = _ := runFrom_ofProperty.mpr ⟨es, hes, rfl⟩
      rw [hrun]
  · obtain ⟨es, hes, rfl⟩ := runFrom_ofProperty.mp hrun
    have hdistinct : (Fields.names es).Nodup := names_ofProperties hes ▸ hconsistent.here.distinct
    have hstores : r.Stores d.properties := stores_of_entries hes fun f hf => by
      have hname : f.1 ∈ d.properties.names := names_ofProperties hes ▸ List.mem_map_of_mem hf
      rw [hr f.1 hname, Fields.get?_foldl_put hdistinct hf]
    have hall : r.fillAll (outlineAll isOpen d.properties) = .ok (recoveredAll isOpen d.properties) :=
      fillAll_outlineAll hstores fun q hq isOpen e he hfield =>
        fillProperty_outline (hconsistent.inside q hq) (hplain.inside q hq) he hfield
    have hclosed : ¬ isOpen [] = true := by simp [hopen]
    rw [outline_eq_mk hclosed, recovered_eq_mk hclosed, Record.fill, hall, hconsistent.here.value_eq_none hroot]
    rfl

theorem plain_segment : segment.Everywhere Plain := by
  refine .intro nofun fun q hq => ?_
  cases List.mem_singleton.mp hq
  refine .intro nofun fun q hq => ?_
  cases List.mem_singleton.mp hq
  exact .intro (fun _ => rfl) nofun

/-- Beside other fields, the segment is read back; through a shape with an open start, without the text below it. -/
theorem segment_recovered : ∃ (after : Fields Entry) (r : Record),
    runFrom [("colour", .value (.text "red"))] (Writing.properties segment) = (.ok (), after) ∧
    r = .mk "Sheet" (("width", .value (.int 2)) :: after) ∧
    r.fill (.mk "Segment" "" none [("start", blank "Point" "from here")]) =
      .ok (.mk "Segment" "" none [("start", .mk "Point" "from here" none [("x", .mk "int" "" (some (.int 4)) [])])]) ∧
    r.fill (.mk "Segment" "" none [("start", .mk "Point" "from here" none [("x", blank "int" "across")])]) =
      .ok segment := by
  let after : Fields Entry :=
    [("colour", .value (.text "red")), ("start", .record (.mk "Point" [("x", .value (.int 4))]))]
  obtain ⟨-, hfill, hclosed, -⟩ :=
    recovered_through_shapes edited_segment.consistent plain_segment rfl [("colour", .value (.text "red"))]
  have hsame : ∀ name ∈ segment.properties.names,
      Fields.get? name (("width", .value (.int 2)) :: after) = Fields.get? name after := by
    intro name hname
    cases List.mem_singleton.mp hname
    rfl
  let r : Record := .mk "Sheet" (("width", .value (.int 2)) :: after)
  refine ⟨after, r, rfl, rfl, ?_, ?_⟩
  · exact hfill after r (fun path => path == ["start"]) rfl hsame rfl
  · exact (hfill after r (fun _ => false) rfl hsame rfl).trans (congrArg Except.ok hclosed)

end Description
end Dataflow
