import Dataflow.Proofs.Archive.Json
import Dataflow.Proofs.Archive.Model
import Dataflow.Proofs.Decimal.RoundTrip

/-! # Stored models

No record of a model has two fields of one name, and however large the model is its record has no more than a
few levels. Every real is read as it was written. So whatever model of built-in nodes can be obtained, and
archived, its document gives it back. -/

namespace Dataflow
open Json

theorem Json.readsBack (x : Float) : ReadsBack x := Decimal.real?_write

namespace Archive

/-- No record has two fields of one name, and at most `limit` levels are nested. -/
structure Record.Fits (limit : Nat) (r : Record) : Prop where
  distinct : r.Distinct
  depth_le : depth r.toJson ≤ limit

structure Entry.Fits (limit : Nat) (e : Entry) : Prop where
  distinct : e.Distinct
  depth_le : depth e.toJson ≤ limit

variable {limit limit' : Nat}

theorem Entry.Fits.mono {e : Entry} (h : e.Fits limit) (hle : limit ≤ limit') : e.Fits limit' :=
  ⟨h.distinct, h.depth_le.trans hle⟩

theorem Entry.fits_value (v : Value) : (Entry.value v).Fits 2 := by
  have hitems : ∀ {α : Type} (f : α → Doc) (xs : List α), (∀ x, depth (f x) = 0) → itemsDepth (xs.map f) = 0 := by
    intro α f xs hf
    induction xs with
    | nil => rfl
    | cons x rest ih => rw [List.map_cons, itemsDepth, hf, ih]; rfl
  have hfloat : ∀ x, depth (.ofFloat x) = 0 := by
    intro x
    unfold ofFloat
    cases Decimal.nonFinite? x <;> rfl
  have hcontent : depth (Value.toJson.content v) ≤ 1 := by
    cases v with
    | bool | int | text => exact Nat.zero_le 1
    | real x => exact (hfloat x).trans_le (Nat.zero_le 1)
    | bools bs => exact Nat.succ_le_succ (hitems _ bs fun _ => rfl).le
    | ints ns => exact Nat.succ_le_succ (hitems _ ns fun _ => rfl).le
    | reals xs => exact Nat.succ_le_succ (hitems _ xs hfloat).le
  refine ⟨trivial, ?_⟩
  simpa [Entry.toJson, Value.toJson, depth, membersDepth] using hcontent

theorem Entry.fits_record {r : Record} (h : r.Fits limit) : (Entry.record r).Fits limit := ⟨h.distinct, h.depth_le⟩

theorem Entry.fits_array {items : List Record} (h : ∀ r ∈ items, r.Fits limit) :
    (Entry.array items).Fits (limit + 2) := by
  have hitems : ItemsDistinct items ∧ itemsDepth (itemsToJson items) ≤ limit := by
    induction items with
    | nil => exact ⟨trivial, Nat.zero_le _⟩
    | cons r rest ih =>
      obtain ⟨hdistinct, hdepth⟩ := ih fun r' hr' => h r' (List.mem_cons_of_mem _ hr')
      have hr := h r List.mem_cons_self
      exact ⟨⟨hr.distinct, hdistinct⟩, Nat.max_le.mpr ⟨hr.depth_le, hdepth⟩⟩
  refine ⟨hitems.1, ?_⟩
  simpa [Entry.toJson, depth, membersDepth] using hitems.2

theorem Record.fits_mk {type : String} {fields : Fields Entry} (hnames : fields.names.Nodup)
    (h : ∀ f ∈ fields, f.2.Fits limit) : (Record.mk type fields).Fits (limit + 2) := by
  have hfields : FieldsDistinct fields ∧ membersDepth (fieldsToJson fields) ≤ limit := by
    clear hnames
    induction fields with
    | nil => exact ⟨trivial, Nat.zero_le _⟩
    | cons f rest ih =>
      obtain ⟨hdistinct, hdepth⟩ := ih fun f' hf' => h f' (List.mem_cons_of_mem _ hf')
      have hf := h f List.mem_cons_self
      exact ⟨⟨hf.distinct, hdistinct⟩, Nat.max_le.mpr ⟨hf.depth_le, hdepth⟩⟩
  refine ⟨⟨hnames, hfields.1⟩, ?_⟩
  simpa [Record.toJson, depth, membersDepth] using hfields.2

/-- A document is read as the record in it, unless the record is nested too deeply or has two fields of one name. -/
theorem Document.parse_print_of_fits {root : Record} {stamp : String} (sp : Spacing) (h : root.Fits (maxDepth - 1))
    (hstamp : Timestamp.isValid stamp = true) : parse (Text.symbols (print sp stamp root)) = .ok root := by
  have hdepth : depth (toJson stamp root) ≤ maxDepth := by
    have hle := h.depth_le
    simp only [toJson, depth, membersDepth, maxDepth] at hle ⊢
    omega
  exact parse_print sp h.distinct hdepth hstamp fun x _ => readsBack x

end Archive

open Archive

/-! ### The records of spans, wires, outputs, nodes and models -/

theorem Span.fits_record (s : Span) : s.record.Fits 4 := by
  apply Record.fits_mk (by simp [Fields.names])
  simp [Entry.fits_value]

theorem Wire.fits_record (w : Wire) : w.record.Fits 8 := by
  apply Record.fits_mk (by simp [Fields.names])
  intro f hf
  obtain rfl := List.mem_singleton.mp hf
  apply Entry.fits_array
  intro r hr
  obtain ⟨s, -, rfl⟩ := List.mem_map.mp hr
  exact s.fits_record

theorem Output.fits_record (o : Output) : o.record.Fits 4 := by
  apply Record.fits_mk (by simp [Fields.names])
  simp [Entry.fits_value]

theorem LinearPredictor.fits_record (p : LinearPredictor) : p.record.Fits 4 := by
  apply Record.fits_mk (by simp [Fields.names])
  simp [Entry.fits_value]

namespace Builtin

theorem fits_record (n : Builtin) : n.record.Fits 10 := by
  have hvalue : ∀ v, (Entry.value v).Fits 8 := fun v => (Entry.fits_value v).mono (by decide)
  have hwire : ∀ w : Wire, (Entry.record w.record).Fits 8 := fun w => Entry.fits_record w.fits_record
  have houtput : ∀ o : Output, (Entry.record o.record).Fits 8 :=
      fun o => (Entry.fits_record o.fits_record).mono (by decide)
  have hpredictor : ∀ p : LinearPredictor, (Entry.record p.record).Fits 8 :=
    fun p => (Entry.fits_record p.fits_record).mono (by decide)
  cases n <;>
    exact Record.fits_mk (by simp [fields, Fields.names]) (by simp [fields, hvalue, hwire, houtput, hpredictor])

end Builtin

namespace Model

theorem fits_record (m : Model Builtin) : m.record.Fits 14 := by
  apply Record.fits_mk (by simp [Fields.names])
  intro f hf
  obtain rfl := List.mem_singleton.mp hf
  apply Entry.fits_array
  intro r hr
  obtain ⟨n, -, rfl⟩ := List.mem_map.mp hr
  exact n.fits_record

end Model

/-- The document of an archived model holds that model, with every real in it as it was. -/
theorem Obtained.unarchive_parse {m : Model Builtin} {root : Record} {stamp : String} (hm : Obtained m) (sp : Spacing)
    (hstamp : Timestamp.isValid stamp = true) (hroot : Archive.archive m = .ok root) :
    Archive.Document.parse (Text.symbols (Archive.Document.print sp stamp root)) >>= Model.unarchive Builtin.registry =
      .ok m := by
  obtain ⟨hstorable, rfl⟩ := stored_eq_ok.mp (m.archive_eq ▸ hroot)
  have hfits : m.record.Fits (maxDepth - 1) := ⟨m.fits_record.distinct, m.fits_record.depth_le.trans (by decide)⟩
  rw [Document.parse_print_of_fits sp hfits hstamp, Result.ok_bind]
  exact Model.unarchive_record hm.wellBuilt hstorable

end Dataflow
