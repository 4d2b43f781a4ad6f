import Dataflow.Json.Decode
import Dataflow.Proofs.Json.Reader

/-! # Decoding what was printed

A document that is not nested too deeply and whose numbers are in range may be used as it was read. The
parts of a structure are then those of the document that was printed, and integers and reals come back
from their written forms. -/

namespace Dataflow.Json
variable {name : String} {names : List String} {members : List (String × Doc)} {limit : Nat}

mutual

/-- The levels of arrays and objects in a document. -/
def depth : Doc → Nat
  | .array items => itemsDepth items + 1
  | .object members => membersDepth members + 1
  | _ => 0

def itemsDepth : List Doc → Nat
  | [] => 0
  | j :: rest => max (depth j) (itemsDepth rest)

def membersDepth : List (String × Doc) → Nat
  | [] => 0
  | (_, j) :: rest => max (depth j) (membersDepth rest)

end

mutual

theorem used?_raw (limit : Nat) (j : Doc) (hdepth : depth j ≤ limit) (hrange : ∀ l ∈ literals j, isInRange l = true) :
    used? limit (raw j) = some j := by
  match j with
  | .null | .bool _ | .string _ => rfl
  | .number literal =>
    rw [raw, used?, if_pos (hrange literal List.mem_cons_self)]
  | .array items =>
    cases limit with
    | zero => simp [depth] at hdepth
    | succ limit =>
      simp only [depth] at hdepth
      rw [raw, used?, usedItems?_raw limit items (by omega) hrange]
      rfl
  | .object members =>
    cases limit with
    | zero => simp [depth] at hdepth
    | succ limit =>
      simp only [depth] at hdepth
      rw [raw, used?, usedMembers?_raw limit members (by omega) hrange]
      rfl

theorem usedItems?_raw (limit : Nat) (items : List Doc) (hdepth : itemsDepth items ≤ limit)
    (hrange : ∀ l ∈ itemLiterals items, isInRange l = true) : usedItems? limit (rawItems items) = some items := by
  match items with
  | [] => rfl
  | j :: items =>
    simp only [itemsDepth] at hdepth
    rw [rawItems, usedItems?, used?_raw limit j (by omega) fun l hl => hrange l (List.mem_append_left _ hl),
      usedItems?_raw limit items (by omega) fun l hl => hrange l (List.mem_append_right _ hl)]
    rfl

theorem usedMembers?_raw (limit : Nat) (members : List (String × Doc)) (hdepth : membersDepth members ≤ limit)
    (hrange : ∀ l ∈ memberLiterals members, isInRange l = true) :
    usedMembers? limit (rawMembers members) = some members := by
  match members with
  | [] => rfl
  | (name, j) :: members =>
    simp only [membersDepth] at hdepth
    rw [rawMembers, usedMembers?, used?_raw limit j (by omega) fun l hl => hrange l (List.mem_append_left _ hl),
      usedMembers?_raw limit members (by omega) fun l hl => hrange l (List.mem_append_right _ hl)]
    rfl

end

/-! ### Parts -/

theorem rawMembers_eq_map : rawMembers members = members.map fun m => (some m.1, raw m.2) := by
  induction members with
  | nil => rfl
  | cons m members ih => rw [rawMembers, ih, List.map_cons]

theorem depth_le_of_mem {m : String × Doc} (h : m ∈ members) : depth m.2 ≤ membersDepth members := by
  induction members with
  | nil => cases h
  | cons m' members ih =>
    rw [membersDepth]
    rcases List.mem_cons.mp h with rfl | h
    · exact Nat.le_max_left _ _
    · exact (ih h).trans (Nat.le_max_right _ _)

theorem mem_memberLiterals {m : String × Doc} (h : m ∈ members) {l : String} (hl : l ∈ literals m.2) :
    l ∈ memberLiterals members := by
  induction members with
  | nil => cases h
  | cons m' members ih =>
    rw [memberLiterals]
    rcases List.mem_cons.mp h with rfl | h
    · exact List.mem_append_left _ hl
    · exact List.mem_append_right _ (ih h)

theorem only?_map {α β : Type} (f : α → β) (xs : List (String × α)) :
    only? name (xs.map fun m => (m.1, f m.2)) = (only? name xs).map f := by
  have hfilter : (xs.map fun m => (m.1, f m.2)).filter (·.1 == name) =
      (xs.filter (·.1 == name)).map fun m => (m.1, f m.2) := List.filter_map
  unfold only?
  rw [hfilter]
  generalize xs.filter (·.1 == name) = ys
  match ys with
  | [] => rfl
  | [_] => rfl
  | _ :: _ :: _ => rfl

theorem mem_of_only? {α : Type} {xs : List (String × α)} {x : α} (h : only? name xs = some x) : (name, x) ∈ xs := by
  unfold only? at h
  split at h
  case h_1 n y hfilter =>
    cases h
    have hmem : (n, x) ∈ xs.filter (·.1 == name) := by
      rw [hfilter]
      exact List.mem_singleton_self _
    obtain ⟨hmem, hname⟩ := List.mem_filter.mp hmem
    exact beq_iff_eq.mp hname ▸ hmem
  case h_2 => cases h

theorem parts?_object : Doc.parts? names (.object members) = names.mapM (only? · members) := by
  have hnamed : members.mapM (fun m => (some (m.1, m.2) : Option (String × Doc))) = some members := by
    rw [show (fun m : String × Doc => some (m.1, m.2)) = fun m => pure (id m) from rfl, List.mapM_pure, List.map_id]
    rfl
  show (members.mapM (fun m => some (m.1, m.2)) >>= fun named => names.mapM fun name => only? name named >>= some) = _
  rw [hnamed]
  simp

/-- The parts of a structure that was printed are used as they were. -/
theorem raw_parts?_object (hdepth : depth (.object members) ≤ limit)
    (hrange : ∀ l ∈ literals (.object members), isInRange l = true) :
    (raw (.object members)).parts? limit names = Doc.parts? names (.object members) := by
  have hnamed : (rawMembers members).mapM (fun m => m.1.bind fun name => some (name, m.2)) =
      some (members.map fun m => (m.1, raw m.2)) := by
    rw [rawMembers_eq_map, List.mapM_map]
    exact List.mapM_pure
  have hused : ∀ name, ((only? name members).map raw).bind (used? (limit - 1)) = only? name members := by
    intro name
    rcases honly : only? name members with _ | j
    · rfl
    · have hmem := mem_of_only? honly
      have hle : depth j ≤ membersDepth members := depth_le_of_mem hmem
      rw [depth] at hdepth
      exact used?_raw (limit - 1) j (by omega) fun l hl => hrange l (mem_memberLiterals hmem hl)
  rw [parts?_object]
  show ((rawMembers members).mapM (fun m => m.1.bind fun name => some (name, m.2)) >>= fun named =>
    names.mapM fun name => (only? name named).bind (used? (limit - 1))) = _
  rw [hnamed]
  show (names.mapM fun name => (only? name (members.map fun m => (m.1, raw m.2))).bind (used? (limit - 1))) = _
  simp only [only?_map, hused]

/-! ### Numbers -/

theorem integer?_toString (i : Int) : integer? (toString i) = some i := by
  have hcondition : ((Decimal.Numeral.ofInt i).isWhole &&
      !((Decimal.Numeral.ofInt i).isNegative && (Decimal.Numeral.ofInt i).toInt == 0)) = true := by
    rw [Decimal.Numeral.toInt_ofInt]
    by_cases hi : i < 0
    · simp [Decimal.Numeral.isWhole, Decimal.Numeral.ofInt]
      omega
    · simp [Decimal.Numeral.isWhole, Decimal.Numeral.isNegative, Decimal.Numeral.ofInt, hi]
  rw [integer?, ← Decimal.Numeral.chars_ofInt, Decimal.Numeral.ofChars?_chars (Decimal.Numeral.isWritten_ofInt i)]
  dsimp only
  rw [if_pos hcondition, Decimal.Numeral.toInt_ofInt]

theorem isNumeral_toString (i : Int) : IsNumeral (toString i) :=
  ⟨.ofInt i, Decimal.Numeral.isWritten_ofInt i, Decimal.Numeral.isJson_ofInt i, (Decimal.Numeral.chars_ofInt i).symm⟩

theorem isInRange_toInt (n : Int64) : isInRange (toString n.toInt) = true := by
  rw [isInRange, integer?_toString]
  simp [isSigned_toInt]

theorem int64?_ofInt (n : Int64) : int64? (.ofInt n.toInt) = some n := by
  rw [ofInt, int64?, integer?_toString]
  simp [isSigned_toInt]

/-- The written form of a real that has a decimal is read as that real. -/
def ReadsBack (x : Float) : Prop := Decimal.nonFinite? x = none → real? (Decimal.Layout.stored.write x) = some x

instance (x : Float) : Decidable (ReadsBack x) := inferInstanceAs (Decidable (_ → _))

theorem float?_ofFloat {x : Float} (h : ReadsBack x) : float? (.ofFloat x) = some x := by
  unfold ofFloat
  rcases hname : Decimal.nonFinite? x with _ | name
  · exact h hname
  · unfold Decimal.nonFinite? at hname
    rcases hreal : Decimal.Real.ofFloat x with _ | negative | b <;> rw [hreal] at hname
    · cases hname
      rw [Decimal.eq_of_notANumber hreal]
      rfl
    · rw [Decimal.eq_of_infinite hreal]
      cases negative <;> cases hname <;> rfl
    · cases hname

end Dataflow.Json
