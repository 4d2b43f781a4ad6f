import Dataflow.Proofs.Json.Token

/-! # Reading what was printed

A printed document is read as the same document, if its number literals are numerals. Wherever a value
may stand, the characters of a document put it where it belongs, whatever surrounds it. -/

namespace Dataflow.Json

mutual

/-- The document as it is read. -/
def raw : Doc → Raw
  | .null => .null
  | .bool b => .bool b
  | .number literal => .number literal
  | .string s => .string (some s)
  | .array items => .array (rawItems items)
  | .object members => .object (rawMembers members)

def rawItems : List Doc → List Raw
  | [] => []
  | j :: rest => raw j :: rawItems rest

def rawMembers : List (String × Doc) → List (Option String × Raw)
  | [] => []
  | (name, j) :: rest => (some name, raw j) :: rawMembers rest

end

mutual

/-- The number literals of a document. -/
def literals : Doc → List String
  | .number literal => [literal]
  | .array items => itemLiterals items
  | .object members => memberLiterals members
  | _ => []

def itemLiterals : List Doc → List String
  | [] => []
  | j :: rest => literals j ++ itemLiterals rest

def memberLiterals : List (String × Doc) → List String
  | [] => []
  | (_, j) :: rest => literals j ++ memberLiterals rest

end

variable {sp : Spacing} {r r' : Read} {stack : List Frame} {mayClose : Bool} {rest : List Text.Symbol}

/-! ### Between the items -/

theorem feed?_newline (depth : Nat) :
    feed? .between r ((sp.newline depth).map some ++ rest) = feed? .between r rest := by
  have hspaces : ∀ n, feed? .between r ((List.replicate n ' ').map some ++ rest) = feed? .between r rest := by
    intro n
    induction n with
    | zero => rfl
    | succ n ih =>
      rw [List.replicate_succ]
      exact (feed?_step _ rfl).trans ih
  cases sp with
  | compact => rfl
  | spread => exact (feed?_step _ rfl).trans (hspaces _)

theorem ends_newline {depth : Nat} (h : Ends rest) : Ends ((sp.newline depth).map some ++ rest) := by
  cases sp with
  | compact => exact h
  | spread =>
    rintro _ ⟨⟩
    exact ⟨'\n', by decide, rfl⟩

theorem ends_cons {c : Char} (hc : c ∈ [',', ']', '}', '\n']) : Ends (some c :: rest) := by
  rintro _ ⟨⟩
  exact ⟨c, hc, rfl⟩

theorem ends_items {depth : Nat} {items : List Doc} (h : Ends rest) :
    Ends ((itemChars sp depth items).map some ++ rest) := by
  cases items with
  | nil => exact h
  | cons j items =>
    rw [itemChars]
    exact ends_cons (by decide)

theorem ends_members {depth : Nat} {members : List (String × Doc)} (h : Ends rest) :
    Ends ((memberChars sp depth members).map some ++ rest) := by
  cases members with
  | nil => exact h
  | cons m members =>
    rw [memberChars]
    exact ends_cons (by decide)

/-- After the name of a member its value is expected. -/
theorem feed?_name {name : String} {done : List (Option String × Raw)} {rest : List Text.Symbol} :
    feed? .between ⟨.object done :: stack, .name mayClose⟩ ((quote name).map some ++ (sp.colon.map some ++ rest)) =
      feed? .between ⟨.member done (some name) :: stack, .value false⟩ rest := by
  have hcolon : ∀ rest, feed? .between ⟨.member done (some name) :: stack, .colon⟩ (some ':' :: rest) =
      feed? .between ⟨.member done (some name) :: stack, .value false⟩ rest := fun rest => feed?_token _ _ rfl rfl
  rw [feed?_quote (show Read.step? _ _ = some ⟨.member done (some name) :: stack, .colon⟩ from rfl)]
  cases sp with
  | compact => exact hcolon rest
  | spread => exact (hcolon _).trans (feed?_step _ rfl)

theorem step?_value {t : Token} {j : Raw} (hvalue : t.value? = some j) (hplace : place j stack = some r') :
    Read.step? ⟨stack, .value mayClose⟩ t = some r' := by
  cases t with
  | word | number | string =>
    cases mayClose <;> simp [Read.step?, hvalue, hplace]
  | _ => cases hvalue

/-! ### Documents -/

mutual

theorem feed?_value (depth : Nat) (j : Doc) (stack : List Frame) (mayClose : Bool) (rest : List Text.Symbol) (r' : Read)
    (hliterals : ∀ l ∈ literals j, IsNumeral l) (hrest : Ends rest) (hplace : place (raw j) stack = some r') :
    feed? .between ⟨stack, .value mayClose⟩ ((chars sp depth j).map some ++ rest) = feed? .between r' rest := by
  match j with
  | .null => exact feed?_word "null".toList rfl (by decide) hrest (step?_value rfl hplace)
  | .bool true => exact feed?_word "true".toList rfl (by decide) hrest (step?_value rfl hplace)
  | .bool false => exact feed?_word "false".toList rfl (by decide) hrest (step?_value rfl hplace)
  | .number literal =>
    have hvalue : (Token.number literal.toList).value? = some (.number literal) := by simp [Token.value?]
    exact feed?_number (hliterals literal List.mem_cons_self) hrest (step?_value hvalue hplace)
  | .string s => exact feed?_quote (step?_value rfl hplace)
  | .array [] =>
    have hopen : feed? .between ⟨stack, .value mayClose⟩ (some '[' :: some ']' :: rest) =
        feed? .between ⟨.array [] :: stack, .value true⟩ (some ']' :: rest) := feed?_token _ _ rfl rfl
    exact hopen.trans (feed?_token _ _ rfl hplace)
  | .array (j :: items) =>
    obtain ⟨hj, hitems⟩ : (∀ l ∈ literals j, IsNumeral l) ∧ ∀ l ∈ itemLiterals items, IsNumeral l :=
      List.forall_mem_append.mp hliterals
    have hclose : Ends ((sp.newline depth).map some ++ (some ']' :: rest)) := ends_newline (ends_cons (by decide))
    have hlast : Read.step? ⟨.array ((rawItems items).reverse ++ [raw j]) :: stack, .more⟩ .closeArray = some r' := by
      have hdone : ((rawItems items).reverse ++ [raw j]).reverse = rawItems (j :: items) := by simp [rawItems]
      show place (.array ((rawItems items).reverse ++ [raw j]).reverse) stack = some r'
      rw [hdone]
      exact hplace
    simp only [chars, List.cons_append, List.append_assoc, List.map_cons, List.map_append, List.map_nil,
      List.nil_append]
    rw [feed?_token .between ⟨.array [] :: stack, .value true⟩ rfl rfl, feed?_newline,
      feed?_value (depth + 1) j (.array [] :: stack) true _ ⟨.array [raw j] :: stack, .more⟩ hj (ends_items hclose) rfl,
      feed?_items (depth + 1) items [raw j] stack _ hitems hclose, feed?_newline]
    exact feed?_token _ _ rfl hlast
  | .object [] =>
    have hopen : feed? .between ⟨stack, .value mayClose⟩ (some '{' :: some '}' :: rest) =
        feed? .between ⟨.object [] :: stack, .name true⟩ (some '}' :: rest) := feed?_token _ _ rfl rfl
    exact hopen.trans (feed?_token _ _ rfl hplace)
  | .object ((name, j) :: members) =>
    obtain ⟨hj, hmembers⟩ : (∀ l ∈ literals j, IsNumeral l) ∧ ∀ l ∈ memberLiterals members, IsNumeral l :=
      List.forall_mem_append.mp hliterals
    have hclose : Ends ((sp.newline depth).map some ++ (some '}' :: rest)) := ends_newline (ends_cons (by decide))
    have hlast :
        Read.step? ⟨.object ((rawMembers members).reverse ++ [(some name, raw j)]) :: stack, .more⟩ .closeObject =
          some r' := by
      have hdone : ((rawMembers members).reverse ++ [(some name, raw j)]).reverse =
          rawMembers ((name, j) :: members) := by
        simp [rawMembers]
      show place (.object ((rawMembers members).reverse ++ [(some name, raw j)]).reverse) stack = some r'
      rw [hdone]
      exact hplace
    simp only [chars, List.cons_append, List.append_assoc, List.map_cons, List.map_append, List.map_nil,
      List.nil_append]
    rw [feed?_token .between ⟨.object [] :: stack, .name true⟩ rfl rfl, feed?_newline, feed?_name,
      feed?_value (depth + 1) j (.member [] (some name) :: stack) false _
        ⟨.object [(some name, raw j)] :: stack, .more⟩ hj (ends_members hclose) rfl,
      feed?_members (depth + 1) members [(some name, raw j)] stack _ hmembers hclose, feed?_newline]
    exact feed?_token _ _ rfl hlast

theorem feed?_items (depth : Nat) (items : List Doc) (done : List Raw) (stack : List Frame) (rest : List Text.Symbol)
    (hliterals : ∀ l ∈ itemLiterals items, IsNumeral l) (hrest : Ends rest) :
    feed? .between ⟨.array done :: stack, .more⟩ ((itemChars sp depth items).map some ++ rest) =
      feed? .between ⟨.array ((rawItems items).reverse ++ done) :: stack, .more⟩ rest := by
  match items with
  | [] => rfl
  | j :: items =>
    obtain ⟨hj, hitems⟩ : (∀ l ∈ literals j, IsNumeral l) ∧ ∀ l ∈ itemLiterals items, IsNumeral l :=
      List.forall_mem_append.mp hliterals
    simp only [itemChars, List.cons_append, List.append_assoc, List.map_cons, List.map_append]
    rw [feed?_token .between ⟨.array done :: stack, .value false⟩ rfl rfl, feed?_newline,
      feed?_value depth j (.array done :: stack) false _ ⟨.array (raw j :: done) :: stack, .more⟩ hj
        (ends_items hrest) rfl,
      feed?_items depth items (raw j :: done) stack rest hitems hrest]
    simp [rawItems]

theorem feed?_members (depth : Nat) (members : List (String × Doc)) (done : List (Option String × Raw))
    (stack : List Frame) (rest : List Text.Symbol) (hliterals : ∀ l ∈ memberLiterals members, IsNumeral l)
    (hrest : Ends rest) :
    feed? .between ⟨.object done :: stack, .more⟩ ((memberChars sp depth members).map some ++ rest) =
      feed? .between ⟨.object ((rawMembers members).reverse ++ done) :: stack, .more⟩ rest := by
  match members with
  | [] => rfl
  | (name, j) :: members =>
    obtain ⟨hj, hmembers⟩ : (∀ l ∈ literals j, IsNumeral l) ∧ ∀ l ∈ memberLiterals members, IsNumeral l :=
      List.forall_mem_append.mp hliterals
    simp only [memberChars, List.cons_append, List.append_assoc, List.map_cons, List.map_append]
    rw [feed?_token .between ⟨.object done :: stack, .name false⟩ rfl rfl, feed?_newline, feed?_name,
      feed?_value depth j (.member done (some name) :: stack) false _
        ⟨.object ((some name, raw j) :: done) :: stack, .more⟩ hj (ends_members hrest) rfl,
      feed?_members depth members ((some name, raw j) :: done) stack rest hmembers hrest]
    simp [rawMembers]

end

theorem parse?_print (j : Doc) (h : ∀ l ∈ literals j, IsNumeral l) :
    parse? (Text.symbols (print sp j)) = some (raw j) := by
  have hfeed : feed? .between ⟨[], .value false⟩ ((chars sp 0 j).map some ++ []) = some ⟨[], .nothing (raw j)⟩ :=
    feed?_value 0 j [] false [] _ h (by rintro _ ⟨⟩) rfl
  rw [List.append_nil] at hfeed
  rw [parse?, Text.symbols, print, String.toList_ofList, hfeed]
  rfl

end Dataflow.Json
