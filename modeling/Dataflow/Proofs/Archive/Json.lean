import Dataflow.Archive.Document
import Dataflow.Proofs.Json.Decode
import Dataflow.Proofs.Utf8

/-! # Archives that are printed

A printed archive is read as the same archive, and its fields in the same order. No entry is read as
another kind than it was: the object of a value is the only one with a member `value`, and the object of
an array has none of the members of a record. What is asked for is that no record has two fields of one
name, that the document is not nested too deeply, and that the written forms of its reals are read as
those reals. -/

namespace Dataflow
open Json

namespace Json

/-- A numeral of JSON that is in range. -/
def IsUsable (literal : String) : Prop := IsNumeral literal ∧ isInRange literal = true

theorem isUsable_toInt (n : Int64) : IsUsable (toString n.toInt) := ⟨isNumeral_toString _, isInRange_toInt n⟩

theorem isNumeral_of_mem_ofFloat {x : Float} {l : String} (hl : l ∈ literals (.ofFloat x)) : IsNumeral l := by
  unfold ofFloat at hl
  rcases hname : Decimal.nonFinite? x with _ | name <;> rw [hname] at hl
  · obtain rfl := List.mem_singleton.mp hl
    exact Decimal.Layout.exists_write rfl hname
  · cases hl

theorem isUsable_of_mem_ofFloat {x : Float} {l : String} (h : ReadsBack x) (hl : l ∈ literals (.ofFloat x)) :
    IsUsable l := by
  refine ⟨isNumeral_of_mem_ofFloat hl, ?_⟩
  unfold ofFloat at hl
  rcases hname : Decimal.nonFinite? x with _ | name <;> rw [hname] at hl
  · obtain rfl := List.mem_singleton.mp hl
    simp [isInRange, h hname]
  · cases hl

theorem mem_itemLiterals {items : List Doc} {l : String} (h : l ∈ itemLiterals items) :
    ∃ j ∈ items, l ∈ literals j := by
  induction items with
  | nil => cases h
  | cons j rest ih =>
    rw [itemLiterals] at h
    rcases List.mem_append.mp h with h | h
    · exact ⟨j, List.mem_cons_self, h⟩
    · obtain ⟨i, hi, hl⟩ := ih h
      exact ⟨i, List.mem_cons_of_mem _ hi, hl⟩

theorem list?_map {α : Type} {item : Doc → Option α} {write : α → Doc} {xs : List α}
    (h : ∀ x ∈ xs, item (write x) = some x) : list? item (.array (xs.map write)) = some xs := by
  show (xs.map write).mapM item = some xs
  induction xs with
  | nil => rfl
  | cons x rest ih =>
    rw [List.map_cons, List.mapM_cons, h x List.mem_cons_self, ih fun y hy => h y (List.mem_cons_of_mem _ hy)]
    rfl

end Json

/-! ### Values -/

namespace Value

/-- The reals in a value. -/
def floats : Value → List Float
  | real x => [x]
  | reals xs => xs
  | _ => []

theorem isUsable_literals {v : Value} {l : String} (h : ∀ x ∈ v.floats, ReadsBack x) (hl : l ∈ literals v.toJson) :
    IsUsable l := by
  have hcontent : l ∈ literals (toJson.content v) := by simpa [toJson, literals, memberLiterals] using hl
  cases v with
  | bool | text => cases hcontent
  | int n =>
    obtain rfl := List.mem_singleton.mp hcontent
    exact isUsable_toInt n
  | real x => exact isUsable_of_mem_ofFloat (h x List.mem_cons_self) hcontent
  | bools bs =>
    obtain ⟨j, hj, hl⟩ := mem_itemLiterals hcontent
    obtain ⟨b, -, rfl⟩ := List.mem_map.mp hj
    cases hl
  | ints ns =>
    obtain ⟨j, hj, hl⟩ := mem_itemLiterals hcontent
    obtain ⟨n, -, rfl⟩ := List.mem_map.mp hj
    obtain rfl := List.mem_singleton.mp hl
    exact isUsable_toInt n
  | reals xs =>
    obtain ⟨j, hj, hl⟩ := mem_itemLiterals hcontent
    obtain ⟨x, hx, rfl⟩ := List.mem_map.mp hj
    exact isUsable_of_mem_ofFloat (h x hx) hl

theorem ofJson?_toJson {v : Value} (h : ∀ x ∈ v.floats, ReadsBack x) : ofJson? v.toJson = some v := by
  have hparts : v.toJson.parts? parts = some [.string v.type, toJson.content v] := by
    rw [toJson, parts?_object]
    rfl
  rw [ofJson?, hparts]
  show ofParts? [.string v.type, toJson.content v] = some v
  cases v with
  | bool | text => rfl
  | int n =>
    show (int64? (.ofInt n.toInt)).map Value.int = _
    rw [int64?_ofInt]
    rfl
  | real x =>
    show (float? (.ofFloat x)).map Value.real = _
    rw [float?_ofFloat (h x List.mem_cons_self)]
    rfl
  | bools bs =>
    have hlist : list? bool? (.array (bs.map .bool)) = some bs := list?_map fun b _ => rfl
    show (list? bool? (.array (bs.map .bool))).map Value.bools = _
    rw [hlist]
    rfl
  | ints ns =>
    have hlist : list? int64? (.array (ns.map fun n => .ofInt n.toInt)) = some ns := list?_map fun n _ => int64?_ofInt n
    show (list? int64? (.array (ns.map fun n => .ofInt n.toInt))).map Value.ints = _
    rw [hlist]
    rfl
  | reals xs =>
    have hlist : list? float? (.array (xs.map .ofFloat)) = some xs := list?_map fun x hx => float?_ofFloat (h x hx)
    show (list? float? (.array (xs.map .ofFloat))).map Value.reals = _
    rw [hlist]
    rfl

end Value

namespace Archive

/-! ### Trees -/

mutual

/-- No record of the tree has two fields of one name. -/
def Record.Distinct : Record → Prop
  | .mk _ fields => (Fields.names fields).Nodup ∧ FieldsDistinct fields

def FieldsDistinct : List (String × Entry) → Prop
  | [] => True
  | (_, e) :: rest => e.Distinct ∧ FieldsDistinct rest

def Entry.Distinct : Entry → Prop
  | .value _ => True
  | .record r => r.Distinct
  | .array items => ItemsDistinct items

def ItemsDistinct : List Record → Prop
  | [] => True
  | r :: rest => r.Distinct ∧ ItemsDistinct rest

end

mutual

/-- The reals in a tree. -/
def Record.floats : Record → List Float
  | .mk _ fields => fieldsFloats fields

def fieldsFloats : List (String × Entry) → List Float
  | [] => []
  | (_, e) :: rest => e.floats ++ fieldsFloats rest

def Entry.floats : Entry → List Float
  | .value v => v.floats
  | .record r => r.floats
  | .array items => itemsFloats items

def itemsFloats : List Record → List Float
  | [] => []
  | r :: rest => r.floats ++ itemsFloats rest

end

mutual

theorem Record.isUsable_literals (r : Record) (h : ∀ x ∈ r.floats, ReadsBack x) :
    ∀ l ∈ literals r.toJson, IsUsable l := by
  match r with
  | .mk type fields =>
    intro l hl
    have hfields : l ∈ memberLiterals (fieldsToJson fields) := by
      simpa [Record.toJson, literals, memberLiterals] using hl
    exact isUsable_fieldLiterals fields h l hfields

theorem isUsable_fieldLiterals (fields : List (String × Entry)) (h : ∀ x ∈ fieldsFloats fields, ReadsBack x) :
    ∀ l ∈ memberLiterals (fieldsToJson fields), IsUsable l := by
  match fields with
  | [] => exact fun l hl => nomatch hl
  | (name, e) :: rest =>
    intro l hl
    rcases List.mem_append.mp hl with hl | hl
    · exact e.isUsable_literals (fun x hx => h x (List.mem_append_left _ hx)) l hl
    · exact isUsable_fieldLiterals rest (fun x hx => h x (List.mem_append_right _ hx)) l hl

theorem Entry.isUsable_literals (e : Entry) (h : ∀ x ∈ e.floats, ReadsBack x) :
    ∀ l ∈ literals e.toJson, IsUsable l := by
  match e with
  | .value v => exact fun l hl => Value.isUsable_literals h hl
  | .record r => exact r.isUsable_literals h
  | .array items =>
    intro l hl
    have hitems : l ∈ itemLiterals (itemsToJson items) := by
      simpa [Entry.toJson, literals, memberLiterals] using hl
    exact isUsable_itemLiterals items h l hitems

theorem isUsable_itemLiterals (items : List Record) (h : ∀ x ∈ itemsFloats items, ReadsBack x) :
    ∀ l ∈ itemLiterals (itemsToJson items), IsUsable l := by
  match items with
  | [] => exact fun l hl => nomatch hl
  | r :: rest =>
    intro l hl
    rcases List.mem_append.mp hl with hl | hl
    · exact r.isUsable_literals (fun x hx => h x (List.mem_append_left _ hx)) l hl
    · exact isUsable_itemLiterals rest (fun x hx => h x (List.mem_append_right _ hx)) l hl

end

/-! ### Reading entries -/

theorem Record.toJson_not_value (r : Record) : Value.ofJson? r.toJson = none := by
  obtain ⟨type, fields⟩ := r
  rw [Record.toJson, Value.ofJson?, parts?_object]
  rfl

theorem Record.parts?_toJson (type : String) (fields : List (String × Entry)) :
    (Record.mk type fields).toJson.parts? Record.parts = some [.string type, .object (fieldsToJson fields)] := by
  rw [Record.toJson, parts?_object]
  rfl

mutual

/-- A record in a field or among the items of an array. -/
theorem Record.ofParts?_toJson (limit : Nat) (r : Record) (hdepth : depth r.toJson ≤ limit + 2) (hdistinct : r.Distinct)
    (hfloats : ∀ x ∈ r.floats, ReadsBack x) :
    (r.toJson.parts? Record.parts).bind (Record.ofParts? (Entry.ofJson? limit)) = some r := by
  match r with
  | .mk type fields =>
    obtain ⟨hnames, hfields⟩ := hdistinct
    have hlimit : membersDepth (fieldsToJson fields) ≤ limit := by
      simp only [Record.toJson, depth, membersDepth] at hdepth
      omega
    rw [Record.parts?_toJson]
    show ((fieldsToJson fields).mapM (fun m => do return (m.1, ← Entry.ofJson? limit m.2)) >>= fun fields =>
      some (Record.mk type (fields.foldl (fun fs p => Fields.put p.1 p.2 fs) []))) = _
    rw [mapM_fieldsToJson limit fields hlimit hfields hfloats]
    show some (Record.mk type (fields.foldl (fun fs p => Fields.put p.1 p.2 fs) [])) = _
    rw [Fields.foldl_put hnames (by simp [Fields.names]), List.nil_append]

theorem mapM_fieldsToJson (limit : Nat) (fields : List (String × Entry))
    (hdepth : membersDepth (fieldsToJson fields) ≤ limit) (hdistinct : FieldsDistinct fields)
    (hfloats : ∀ x ∈ fieldsFloats fields, ReadsBack x) :
    (fieldsToJson fields).mapM (fun m => do return (m.1, ← Entry.ofJson? limit m.2)) = some fields := by
  match fields with
  | [] => rfl
  | (name, e) :: rest =>
    obtain ⟨he, hrest⟩ := hdistinct
    simp only [fieldsToJson, membersDepth] at hdepth
    rw [fieldsToJson, List.mapM_cons,
      e.ofJson?_toJson limit (by omega) he fun x hx => hfloats x (List.mem_append_left _ hx),
      mapM_fieldsToJson limit rest (by omega) hrest fun x hx => hfloats x (List.mem_append_right _ hx)]
    rfl

theorem Entry.ofJson?_toJson (limit : Nat) (e : Entry) (hdepth : depth e.toJson ≤ limit) (hdistinct : e.Distinct)
    (hfloats : ∀ x ∈ e.floats, ReadsBack x) : Entry.ofJson? limit e.toJson = some e := by
  match e with
  | .value v =>
    cases limit with
    | zero => simp [Entry.toJson, Value.toJson, depth] at hdepth
    | succ limit =>
      rw [Entry.ofJson?, show (Entry.value v).toJson = v.toJson from rfl, Value.ofJson?_toJson hfloats]
  | .record r =>
    cases limit with
    | zero =>
      cases r
      simp [Entry.toJson, Record.toJson, depth] at hdepth
    | succ limit =>
      rw [Entry.ofJson?, show (Entry.record r).toJson = r.toJson from rfl, r.toJson_not_value]
      dsimp only
      rw [r.ofParts?_toJson limit (Nat.le_succ_of_le hdepth) hdistinct hfloats]
  | .array items =>
    cases limit with
    | zero => simp [Entry.toJson, depth] at hdepth
    | succ limit =>
      have hvalue : Value.ofJson? (Entry.array items).toJson = none := by
        rw [Entry.toJson, Value.ofJson?, parts?_object]
        rfl
      have hrecord : (Entry.array items).toJson.parts? Record.parts = none := by
        rw [Entry.toJson, parts?_object]
        rfl
      have hitems : (Entry.array items).toJson.parts? ["items"] = some [.array (itemsToJson items)] := by
        rw [Entry.toJson, parts?_object]
        rfl
      simp only [Entry.toJson, depth, membersDepth] at hdepth
      rw [Entry.ofJson?, hvalue, hrecord, hitems]
      show ((itemsToJson items).mapM fun j : Doc =>
        (j.parts? Record.parts).bind (Record.ofParts? (Entry.ofJson? limit))).map
        Entry.array = _
      rw [mapM_itemsToJson limit items (by omega) hdistinct hfloats]
      rfl

theorem mapM_itemsToJson (limit : Nat) (items : List Record) (hdepth : itemsDepth (itemsToJson items) ≤ limit + 2)
    (hdistinct : ItemsDistinct items) (hfloats : ∀ x ∈ itemsFloats items, ReadsBack x) :
    (itemsToJson items).mapM (fun j => (j.parts? Record.parts).bind (Record.ofParts? (Entry.ofJson? limit))) =
      some items := by
  match items with
  | [] => rfl
  | r :: rest =>
    obtain ⟨hr, hrest⟩ := hdistinct
    simp only [itemsToJson, itemsDepth] at hdepth
    rw [itemsToJson, List.mapM_cons,
      r.ofParts?_toJson limit (by omega) hr fun x hx => hfloats x (List.mem_append_left _ hx),
      mapM_itemsToJson limit rest (by omega) hrest fun x hx => hfloats x (List.mem_append_right _ hx)]
    rfl

end

/-- A record of a text that was printed. -/
theorem Record.ofJson?_raw {r : Record} {limit : Nat} (hdepth : depth r.toJson ≤ limit) (hdistinct : r.Distinct)
    (hfloats : ∀ x ∈ r.floats, ReadsBack x) : Record.ofJson? limit (raw r.toJson) = some r := by
  have hread := r.ofParts?_toJson limit (hdepth.trans (Nat.le_add_right _ 2)) hdistinct hfloats
  have hrange : ∀ l ∈ literals r.toJson, isInRange l = true := fun l hl => (r.isUsable_literals hfloats l hl).2
  show ((raw r.toJson).parts? limit Record.parts).bind (Record.ofParts? (Entry.ofJson? limit)) = _
  obtain ⟨type, fields⟩ := r
  rw [Record.toJson] at hdepth hrange hread ⊢
  rw [raw_parts?_object hdepth hrange, hread]

namespace Document
variable {stamp : String} {root : Record}

theorem parse_print (sp : Spacing) (hdistinct : root.Distinct) (hdepth : depth (toJson stamp root) ≤ maxDepth)
    (hstamp : Timestamp.isValid stamp = true) (hfloats : ∀ x ∈ root.floats, ReadsBack x) :
    parse (Text.symbols (print sp stamp root)) = .ok root := by
  have hnumerals : ∀ l ∈ literals (toJson stamp root), IsNumeral l := by
    intro l hl
    have hroot : l ∈ literals root.toJson := by simpa [toJson, literals, memberLiterals] using hl
    exact (root.isUsable_literals hfloats l hroot).1
  have hroot : depth root.toJson ≤ maxDepth - 1 := by
    simp only [toJson, depth, membersDepth] at hdepth
    omega
  have hread : ofJson? maxDepth (raw (toJson stamp root)) = some (format, root) := by
    show (if Timestamp.isValid stamp = true then
      (Record.ofJson? (maxDepth - 1) (raw root.toJson)).bind fun r => some (format, r) else none) = _
    rw [if_pos hstamp, Record.ofJson?_raw hroot hdistinct hfloats]
    rfl
  have hdecode : decode "an archive document" (ofJson? maxDepth) (Text.symbols (print sp stamp root)) =
      .ok (format, root) := by
    rw [decode, print, parse?_print _ hnumerals, Option.bind_some, hread]
  rw [parse, hdecode]
  rfl

/-- The octets of a document, compact or spread out, are read as the tree that was written: every name,
    every value to the last bit, every entry of its kind, and all fields in order. -/
theorem parse_octets (sp : Spacing) (hdistinct : root.Distinct) (hdepth : depth (toJson stamp root) ≤ maxDepth)
    (hstamp : Timestamp.isValid stamp = true) (hfloats : ∀ x ∈ root.floats, ReadsBack x) :
    parse (Text.decodeUtf8 (print sp stamp root).toUTF8.data.toList) = .ok root := by
  rw [Text.decodeUtf8_toUTF8, parse_print sp hdistinct hdepth hstamp hfloats]

/-- Names that are those of types and members, and reals at the edges. -/
def edges : Record :=
  .mk "array" [
    ("bool", .value (.reals [0.0 / 0.0, 1.0 / 0.0, -(1.0 / 0.0), -0.0, 0.1, 5e-324, 1.7976931348623157e308])),
    ("value", .record (.mk "real[]" [("fields", .value (.text "\"é\n\x01")), ("type", .value (.int (-9))),
      ("items", .array [])])),
    ("items", .array [.mk "int" [], .mk "" [("value", .array [.mk "value" [("items", .value (.bool true))]])]])]

theorem edges_parse_octets :
    parse (Text.decodeUtf8 (print .compact "2024-02-29T12:00:00Z" edges).toUTF8.data.toList) = .ok edges ∧
      parse (Text.decodeUtf8 (print .spread "2024-02-29T12:00:00Z" edges).toUTF8.data.toList) = .ok edges := by
  have hdistinct : edges.Distinct := by
    simp [edges, Record.Distinct, FieldsDistinct, Entry.Distinct, ItemsDistinct, Fields.names]
  have hdepth : depth (toJson "2024-02-29T12:00:00Z" edges) ≤ maxDepth := by decide +kernel
  have hstamp : Timestamp.isValid "2024-02-29T12:00:00Z" = true := by decide +kernel
  have hfloats : ∀ x ∈ edges.floats, ReadsBack x := by decide +kernel
  exact ⟨parse_octets .compact hdistinct hdepth hstamp hfloats, parse_octets .spread hdistinct hdepth hstamp hfloats⟩

end Document
end Archive
end Dataflow
