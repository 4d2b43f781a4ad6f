import Dataflow.Json.Printer
import Dataflow.Json.Reader
import Dataflow.Proofs.Decimal.Layout

/-! # Scanning what was printed

Between tokens, the characters of a token take the reader one step further and leave the scanner between
tokens again. A string literal ends itself; a word or a number ends where the text does or where a
character follows that separates items. -/

namespace Dataflow.Json
variable {s : Scan} {r r' : Read} {t : Token} {x : Text.Symbol} {c : Char} {cs : List Char} {rest : List Text.Symbol}

/-! ### Single symbols -/

theorem feed?_step (u : Scan) (h : s.step? x = some ([], u)) : feed? s r (x :: rest) = feed? u r rest := by
  rw [feed?, h]
  rfl

theorem feed?_token (u : Scan) (q : Read) (h : s.step? x = some ([t], u)) (ht : r.step? t = some q) :
    feed? s r (x :: rest) = feed? u q rest := by
  rw [feed?, h]
  simp [run?, ht]

/-! ### String literals -/

theorem textOf?_chars (cs : List Char) : textOf? (cs.map .char) = some cs := by
  induction cs with
  | nil => rfl
  | cons c rest ih => simp [textOf?, ih]

/-- The four digits by which a control character is written. -/
theorem control_digits : ∀ n < 0x20,
    isHex (Nat.digitChar (n / 16)) = true ∧ isHex (Nat.digitChar (n % 16)) = true ∧
      Piece.ofUnit (Decimal.Numeral.ofDigits 16 ['0', '0', Nat.digitChar (n / 16), Nat.digitChar (n % 16)]) =
        .char (Char.ofNat n) := by
  decide

theorem feed?_escape (c : Char) (done : List Piece) :
    feed? (.string done) r ((escape c).map some ++ rest) = feed? (.string (.char c :: done)) r rest := by
  have hletter : ∀ a : Char, escaped? a = some c → a ≠ 'u' →
      feed? (.string done) r (some '\\' :: some a :: rest) = feed? (.string (.char c :: done)) r rest := by
    intro a ha hu
    rw [feed?_step (.escape done) rfl]
    exact feed?_step _ (by simp [Scan.step?, hu, ha])
  unfold escape
  split_ifs with hquote hbackslash hb hf hn hr ht hcontrol
  · exact hletter '"' (by rw [hquote]; rfl) (by decide)
  · exact hletter '\\' (by rw [hbackslash]; rfl) (by decide)
  · exact hletter 'b' (by rw [hb]; rfl) (by decide)
  · exact hletter 'f' (by rw [hf]; rfl) (by decide)
  · exact hletter 'n' (by rw [hn]; rfl) (by decide)
  · exact hletter 'r' (by rw [hr]; rfl) (by decide)
  · exact hletter 't' (by rw [ht]; rfl) (by decide)
  · obtain ⟨hhigh, hlow, hunit⟩ := control_digits c.toNat hcontrol
    rw [Char.ofNat_toNat] at hunit
    show feed? (.string done) r (some '\\' :: some 'u' :: some '0' :: some '0' :: _ :: _ :: rest) = _
    rw [feed?_step (.escape done) rfl, feed?_step (.unicode done []) rfl, feed?_step (.unicode done ['0']) rfl,
      feed?_step (.unicode done ['0', '0']) rfl,
        feed?_step (.unicode done [(c.toNat / 16).digitChar, '0', '0']) (by simp [Scan.step?, hhigh])]
    exact feed?_step _ (by simp [Scan.step?, hlow, hunit])
  · exact feed?_step _ (by simp [Scan.step?, hquote, hbackslash, hcontrol])

theorem feed?_escapes (cs : List Char) (done : List Piece) :
    feed? (.string done) r ((cs.flatMap escape).map some ++ rest) =
      feed? (.string ((cs.map .char).reverse ++ done)) r rest := by
  induction cs generalizing done with
  | nil => rfl
  | cons c cs ih =>
    rw [List.flatMap_cons, List.map_append, List.append_assoc, feed?_escape, ih]
    simp

theorem feed?_quote {text : String} (ht : r.step? (.string (some text)) = some r') :
    feed? .between r ((quote text).map some ++ rest) = feed? .between r' rest := by
  have hsplit : (quote text).map some ++ rest =
      some '"' :: ((text.toList.flatMap escape).map some ++ some '"' :: rest) := by
    simp [quote]
  rw [hsplit, feed?_step (.string []) rfl, feed?_escapes, List.append_nil]
  refine feed?_token _ _ ?_ ht
  simp [Scan.step?, textOf?_chars]

/-! ### Words and numbers -/

/-- What follows an item: the end of the text, or a character that no word or number goes on with. -/
def Ends (rest : List Text.Symbol) : Prop := ∀ x ∈ rest.head?, ∃ c ∈ [',', ']', '}', '\n'], x = some c

/-- A token that the scanner is in the middle of is complete where the item ends. -/
theorem feed?_end (hfinish : s.finish? = some [t])
    (hstep : ∀ c ∈ [',', ']', '}', '\n'], s.step? (some c) = (begin? c).map fun (tokens, s) => (t :: tokens, s))
    (hrest : Ends rest) (ht : r.step? t = some r') : feed? s r rest = feed? .between r' rest := by
  cases rest with
  | nil =>
    rw [feed?, feed?, hfinish]
    simp [run?, ht, Scan.finish?]
  | cons x rest =>
    obtain ⟨c, hc, rfl⟩ := hrest x rfl
    have hbegin : Scan.between.step? (some c) = begin? c := rfl
    rw [feed?, feed?, hstep c hc, hbegin]
    cases begin? c with
    | none => rfl
    | some p => simp [run?, ht]

/-- Characters that the scanner collects one after the other. -/
theorem feed?_collect (k : List Char → Scan)
    (hstep : ∀ c ∈ cs, ∀ done, (k done).step? (some c) = some ([], k (c :: done))) (done : List Char) :
    feed? (k done) r (cs.map some ++ rest) = feed? (k (cs.reverse ++ done)) r rest := by
  induction cs generalizing done with
  | nil => rfl
  | cons c cs ih =>
    show feed? (k done) r (some c :: (cs.map some ++ rest)) = _
    rw [feed?_step _ (hstep c List.mem_cons_self done), ih fun d hd => hstep d (List.mem_cons_of_mem _ hd)]
    simp

theorem isSpace_of_isAlphanum (h : c.isAlphanum = true) : isSpace c = false := by
  rw [Bool.eq_false_iff]
  intro hspace
  simp only [isSpace, Bool.or_eq_true, beq_iff_eq] at hspace
  rcases hspace with ((rfl | rfl) | rfl) | rfl <;> cases h

theorem feed?_word (cs : List Char) (hcs : cs.all Char.isAlpha = true) (hne : cs ≠ []) (hrest : Ends rest)
    (ht : r.step? (.word cs) = some r') : feed? .between r (cs.map some ++ rest) = feed? .between r' rest := by
  obtain ⟨c, cs, rfl⟩ := List.exists_cons_of_ne_nil hne
  have hcs := List.all_eq_true.mp hcs
  have hc := hcs c List.mem_cons_self
  have hspace := isSpace_of_isAlphanum (c := c) (by simp [Char.isAlphanum, hc])
  have hbegin : Scan.between.step? (some c) = some ([], .word [c]) := by
    show begin? c = _
    simp [begin?, hspace, hc]
  show feed? .between r (some c :: (cs.map some ++ rest)) = _
  rw [feed?_step _ hbegin, feed?_collect .word fun d hd done => by simp [Scan.step?, hcs d (List.mem_cons_of_mem _ hd)]]
  refine feed?_end ?_ ?_ hrest ht
  · simp [Scan.finish?]
  · intro d hd
    have hd' : d.isAlpha = false := by
      simp only [List.mem_cons, List.not_mem_nil, or_false] at hd
      rcases hd with rfl | rfl | rfl | rfl <;> rfl
    simp [Scan.step?, hd']

/-- A literal is a numeral of JSON. -/
def IsNumeral (literal : String) : Prop :=
  ∃ n : Decimal.Numeral, n.IsWritten ∧ n.isJson = true ∧ literal.toList = n.chars

section
variable {n : Decimal.Numeral}

theorem continuesNumber_of_isDigit (h : c.isDigit = true) : continuesNumber c = true := by simp [continuesNumber, h]

theorem continuesNumber_of_isSign (h : Decimal.Numeral.isSign c = true) : continuesNumber c = true := by
  rcases Decimal.Numeral.isSign_iff.mp h with rfl | rfl <;> rfl

theorem continuesNumber_of_mem_chars (h : n.IsWritten) (hc : c ∈ n.chars) : continuesNumber c = true := by
  simp only [Decimal.Numeral.chars, List.mem_append, Option.mem_toList] at hc
  rcases hc with hc | hc | hc | hc
  · exact continuesNumber_of_isSign (h.sign c hc)
  · exact continuesNumber_of_isDigit (h.whole c hc)
  · cases hf : n.fraction with
    | none => simp [hf, Decimal.Numeral.fractionChars] at hc
    | some ds =>
      rw [hf] at hc
      rcases List.mem_cons.mp hc with rfl | hc
      · rfl
      · exact continuesNumber_of_isDigit (h.fraction ds hf c hc)
  · cases he : n.exponent with
    | none => simp [he, Decimal.Numeral.exponentChars] at hc
    | some e =>
      rw [he] at hc
      rcases List.mem_cons.mp hc with rfl | hc
      · rfl
      · rcases List.mem_append.mp hc with hc | hc
        · exact continuesNumber_of_isSign ((h.exponent e he).1 c (Option.mem_toList.mp hc))
        · exact continuesNumber_of_isDigit ((h.exponent e he).2 c hc)

/-- A numeral of JSON begins with a minus sign or a digit. -/
theorem exists_chars_eq_cons (h : n.IsWritten) (hjson : n.isJson = true) :
    ∃ c cs, n.chars = c :: cs ∧ (c = '-' ∨ c.isDigit = true) := by
  simp only [Decimal.Numeral.isJson, Bool.and_eq_true, bne_iff_ne, ne_eq, Bool.not_eq_true', List.isEmpty_eq_false_iff]
    at hjson
  obtain ⟨⟨⟨⟨hsign, hwhole⟩, -⟩, -⟩, -⟩ := hjson
  cases hs : n.sign with
  | some c =>
    refine ⟨c, _, by rw [Decimal.Numeral.chars, hs]; rfl, .inl ?_⟩
    refine (Decimal.Numeral.isSign_iff.mp (h.sign c hs)).resolve_left ?_
    rintro rfl
    exact hsign hs
  | none =>
    obtain ⟨c, cs, hcs⟩ := List.exists_cons_of_ne_nil hwhole
    refine ⟨c, _, by rw [Decimal.Numeral.chars, hs, hcs]; rfl, .inr (h.whole c ?_)⟩
    rw [hcs]
    exact List.mem_cons_self

end

/-- Letters lie above the digits. -/
theorem isAlpha_of_isDigit (h : c.isDigit = true) : c.isAlpha = false := by
  obtain ⟨-, hle⟩ := Decimal.Numeral.isDigit_iff.mp h
  rw [Bool.eq_false_iff]
  intro halpha
  rcases Bool.or_eq_true_iff.mp halpha with hupper | hlower
  · have hge : 65 ≤ c.toNat := UInt32.le_iff_toNat_le.mp (of_decide_eq_true hupper).1
    omega
  · have hge : 97 ≤ c.toNat := UInt32.le_iff_toNat_le.mp (of_decide_eq_true (Bool.and_eq_true_iff.mp hlower).1)
    omega

theorem step?_between_number (h : c = '-' ∨ c.isDigit = true) :
    Scan.between.step? (some c) = some ([], .number [c]) := by
  show begin? c = _
  rcases h with rfl | h
  · rfl
  · have hspace := isSpace_of_isAlphanum (c := c) (by simp [Char.isAlphanum, h])
    simp [begin?, hspace, isAlpha_of_isDigit h, startsNumber, h]

theorem feed?_number {literal : String} (h : IsNumeral literal) (hrest : Ends rest)
    (ht : r.step? (.number literal.toList) = some r') :
    feed? .between r (literal.toList.map some ++ rest) = feed? .between r' rest := by
  obtain ⟨n, hwritten, hjson, hchars⟩ := h
  obtain ⟨c, cs, hcons, hstart⟩ := exists_chars_eq_cons hwritten hjson
  have htoken : numberToken? (cs.reverse ++ [c]) = some (.number literal.toList) := by
    have hreverse : (cs.reverse ++ [c]).reverse = literal.toList := by simp [hchars, hcons]
    rw [numberToken?, hreverse, hchars, Decimal.Numeral.ofChars?_chars hwritten]
    simp [hjson]
  have hcollect : ∀ d ∈ cs, ∀ done, (Scan.number done).step? (some d) = some ([], .number (d :: done)) := by
    intro d hd done
    have hd : continuesNumber d = true := continuesNumber_of_mem_chars hwritten (hcons ▸ List.mem_cons_of_mem _ hd)
    simp [Scan.step?, hd]
  rw [hchars, hcons]
  show feed? .between r (some c :: (cs.map some ++ rest)) = _
  rw [feed?_step (.number [c]) (step?_between_number hstart), feed?_collect .number hcollect]
  refine feed?_end ?_ ?_ hrest ht
  · simp [Scan.finish?, htoken]
  · intro d hd
    have hd' : continuesNumber d = false := by
      simp only [List.mem_cons, List.not_mem_nil, or_false] at hd
      rcases hd with rfl | rfl | rfl | rfl <;> rfl
    simp only [Scan.step?, hd', htoken]
    cases begin? d <;> rfl

end Dataflow.Json
