import Dataflow.Settings.Substitution
import Mathlib.Data.List.Basic

/-! # References in a text

Reading a text from left to right, the first reference is the one that begins furthest to the left; what
stands before it holds no other, and reading goes on behind it. The automaton that takes a text apart finds
just these references, and so replacing them is replacing each by the value of its variable, if there is
one, and nothing else. -/

namespace Dataflow
namespace Substitution
variable {cs rest name front tail : List Char} {value? : String → Option String}

/-- A name that a reference may have. -/
def IsName (name : List Char) : Prop := name ≠ [] ∧ '}' ∉ name

def reference (name : List Char) : List Char := '$' :: '{' :: (name ++ ['}'])

/-- A reference begins the text. -/
def Opens (cs : List Char) : Prop := ∃ name rest, IsName name ∧ cs = reference name ++ rest

/-- A text taken apart at its references: for each of them the characters in front of it, among which none begins,
    and its name; and the characters behind the last one. -/
inductive Divides : List Char → List (List Char × List Char) → List Char → Prop
  | last {cs : List Char} : (∀ k, ¬ Opens (cs.drop k)) → Divides cs [] cs
  | next {front name rest tail : List Char} {parts : List (List Char × List Char)} : IsName name →
      (∀ k < front.length, ¬ Opens ((front ++ reference name ++ rest).drop k)) → Divides rest parts tail →
      Divides (front ++ reference name ++ rest) ((front, name) :: parts) tail

/-! ### What the automaton does -/

theorem pieces_plain {s : State} (h : '}' ∉ cs) : pieces s cs = (s.held ++ cs).map .plain := by
  induction cs generalizing s with
  | nil => simp [pieces]
  | cons c rest ih =>
    obtain ⟨hc, hrest⟩ := not_or.mp (List.mem_cons.not.mp h)
    cases s with
    | outside => by_cases hdollar : c = '$' <;> simp [pieces, hdollar, ih hrest, State.held]
    | dollar =>
      by_cases hbrace : c = '{'
      · simp [pieces, hbrace, ih hrest, State.held]
      · by_cases hdollar : c = '$' <;> simp [pieces, hbrace, hdollar, ih hrest, State.held]
    | inside read => simp [pieces, Ne.symm hc, ih hrest, State.held]

theorem pieces_inside {read : List Char} (h : '}' ∉ name) :
    pieces (.inside read) (name ++ '}' :: rest) = pieces (.inside (name.reverse ++ read)) ('}' :: rest) := by
  induction name generalizing read with
  | nil => rfl
  | cons c name ih =>
    obtain ⟨hc, hname⟩ := not_or.mp (List.mem_cons.not.mp h)
    rw [List.cons_append, pieces, if_pos (Ne.symm hc), ih hname, List.reverse_cons, List.append_assoc]
    rfl

/-- Where a reference begins, it is the next piece. -/
theorem pieces_reference (h : IsName name) :
    pieces .outside (reference name ++ rest) = .reference name :: pieces .outside rest := by
  obtain ⟨hne, hclosed⟩ := h
  have hinside : pieces .outside (reference name ++ rest) = pieces (.inside []) (name ++ '}' :: rest) := by
    simp [reference, pieces]
  rw [hinside, pieces_inside hclosed, List.append_nil]
  simp [pieces, hne]

/-- Where none begins, the next piece is the next character. -/
theorem pieces_cons {c : Char} (h : ¬ Opens (c :: rest)) :
    pieces .outside (c :: rest) = .plain c :: pieces .outside rest := by
  by_cases hclosed : '}' ∈ c :: rest
  case neg =>
    rw [pieces_plain hclosed, pieces_plain fun hmem => hclosed (List.mem_cons_of_mem c hmem)]
    rfl
  by_cases hdollar : c = '$'
  case neg => simp [pieces, hdollar]
  subst hdollar
  obtain _ | ⟨d, rest⟩ := rest
  · rfl
  by_cases hbrace : d = '{'
  case neg => by_cases hagain : d = '$' <;> simp [pieces, hbrace, hagain]
  subst hbrace
  -- What stands up to the first closing brace would be a name, if it were not empty.
  have hmem : '}' ∈ rest := by simpa using hclosed
  obtain ⟨name, rest, rfl, hname⟩ := List.eq_append_cons_of_mem hmem
  obtain rfl : name = [] := by
    by_contra hne
    exact h ⟨name, rest, ⟨hne, hname⟩, by simp [reference]⟩
  simp [pieces]

theorem pieces_append (h : ∀ k < front.length, ¬ Opens ((front ++ rest).drop k)) :
    pieces .outside (front ++ rest) = front.map .plain ++ pieces .outside rest := by
  induction front with
  | nil => rfl
  | cons c front ih =>
    have hfirst : ¬ Opens (c :: (front ++ rest)) := h 0 (Nat.succ_pos _)
    rw [List.cons_append, pieces_cons hfirst, ih fun k hk => h (k + 1) (Nat.succ_lt_succ hk)]
    rfl

/-! ### The references of a text -/

theorem Divides.cons {c : Char} {parts : List (List Char × List Char)} (h : Divides rest parts tail)
    (hc : ¬ Opens (c :: rest)) : ∃ parts tail, Divides (c :: rest) parts tail := by
  cases h with
  | last hnone =>
    refine ⟨[], c :: rest, .last fun k => ?_⟩
    cases k with
    | zero => exact hc
    | succ k => exact hnone k
  | @next front name rest _ parts hname hnone hrest =>
    have hfront : ∀ k < (c :: front).length, ¬ Opens ((c :: front ++ reference name ++ rest).drop k) := fun k hk => by
      cases k with
      | zero => exact hc
      | succ k => exact hnone k (Nat.lt_of_succ_lt_succ hk)
    exact ⟨(c :: front, name) :: parts, _, .next hname hfront hrest⟩

theorem exists_divides (cs : List Char) : ∃ parts tail, Divides cs parts tail := by
  induction hlength : cs.length using Nat.strongRecOn generalizing cs with
  | ind n ih =>
    subst hlength
    by_cases hopens : Opens cs
    · obtain ⟨name, rest, hname, rfl⟩ := hopens
      obtain ⟨parts, tail, hrest⟩ := ih rest.length (by simp [reference]; omega) rest rfl
      have hfront : ∀ k < ([] : List Char).length, ¬ Opens (([] ++ reference name ++ rest).drop k) :=
        fun k hk => absurd hk (Nat.not_lt_zero k)
      exact ⟨([], name) :: parts, tail, .next hname hfront hrest⟩
    · obtain _ | ⟨c, rest⟩ := cs
      · exact ⟨[], [], .last fun k => by rwa [List.drop_nil]⟩
      · obtain ⟨parts, tail, hrest⟩ := ih rest.length (Nat.lt_succ_self _) rest rfl
        exact hrest.cons hopens

theorem Divides.pieces_eq {parts : List (List Char × List Char)} (h : Divides cs parts tail) :
    pieces .outside cs = parts.flatMap (fun p => p.1.map .plain ++ [.reference p.2]) ++ tail.map .plain := by
  induction h with
  | @last cs hnone =>
    have hplain : pieces .outside (cs ++ []) = cs.map .plain ++ pieces .outside [] :=
      pieces_append fun k _ => by
        rw [List.append_nil]
        exact hnone k
    rw [List.append_nil] at hplain
    rw [hplain, List.flatMap_nil, List.nil_append]
    exact List.append_nil _
  | next hname hnone _ ih =>
    rw [List.append_assoc] at hnone ⊢
    rw [pieces_append hnone, pieces_reference hname, ih]
    simp

theorem Divides.text {parts : List (List Char × List Char)} (h : Divides cs parts tail) :
    parts.flatMap (fun p => p.1 ++ reference p.2) ++ tail = cs := by
  induction h with
  | last => rfl
  | next _ _ _ ih => rw [List.flatMap_cons, List.append_assoc, ih]

/-! ### Replacing references -/

/-- What replaces a reference: the value of its variable, or the reference itself. -/
def replacement (value? : String → Option String) (name : List Char) : List Char :=
  ((value? (String.ofList name)).map String.toList).getD (reference name)

theorem resolve_reference : resolve value? (.reference name) = replacement value? name := by
  simp only [resolve, replacement]
  rcases value? (String.ofList name) with _ | value <;> rfl

theorem flatMap_resolve_plain : (cs.map Piece.plain).flatMap (resolve value?) = cs := by
  rw [List.flatMap_map]
  exact List.flatMap_singleton' cs

theorem Divides.substitute_eq {text : String} {parts : List (List Char × List Char)}
    (h : Divides text.toList parts tail) :
    (substitute value? text).toList = parts.flatMap (fun p => p.1 ++ replacement value? p.2) ++ tail := by
  rw [substitute, String.toList_ofList, h.pieces_eq, List.flatMap_append, flatMap_resolve_plain, List.flatMap_assoc]
  simp only [List.flatMap_append, flatMap_resolve_plain, List.flatMap_singleton, resolve_reference]

theorem Divides.names_eq {text : String} {parts : List (List Char × List Char)} (h : Divides text.toList parts tail) :
    names text = parts.map fun p => String.ofList p.2 := by
  have hplain : ∀ (g : Piece → Option String) (cs : List Char), (∀ c, g (.plain c) = none) →
      (cs.map Piece.plain).filterMap g = [] := by
    intro g cs hg
    simp [List.filterMap_map, hg]
  rw [names, h.pieces_eq, List.filterMap_append, hplain _ tail fun _ => rfl, List.append_nil, List.filterMap_flatMap,
    List.map_eq_flatMap]
  refine List.flatMap_congr fun p _ => ?_
  rw [List.filterMap_append, hplain _ p.1 fun _ => rfl]
  rfl

/-- A text can be taken apart at its references, from left to right: in front of each of them none begins further to
    the left, its name is whatever stands up to the next closing brace, and what stands behind that brace is taken
    apart in the same way. However it is done, these are the variables that the text refers to, and replacing puts
    their values, as they are, in the place of the references to those that have one, and leaves all else as it was. So
    a text is left alone if none of the variables has a value. -/
theorem substitute_of_divides (text : String) :
    (∃ parts tail, Divides text.toList parts tail) ∧
    ∀ parts tail, Divides text.toList parts tail →
      names text = parts.map (fun p => String.ofList p.2) ∧
      ∀ value?, (substitute value? text).toList = parts.flatMap (fun p => p.1 ++ replacement value? p.2) ++ tail ∧
        ((∀ p ∈ parts, value? (String.ofList p.2) = none) → substitute value? text = text) := by
  refine ⟨exists_divides text.toList,
    fun parts tail h => ⟨h.names_eq, fun value? => ⟨h.substitute_eq, fun hnone => ?_⟩⟩⟩
  have hsame : parts.flatMap (fun p => p.1 ++ replacement value? p.2) = parts.flatMap fun p => p.1 ++ reference p.2 :=
    List.flatMap_congr fun p hp => by
      rw [replacement, hnone p hp]
      rfl
  apply String.toList_injective
  rw [h.substitute_eq, hsame, h.text]

/-- A name that is not there, a name with an opening in it, a variable without a value, and an opening without an
    end. -/
def nestedText : String := "$$\x7b\x7d$\x7ba$\x7bb\x7dx$\x7bc\x7d$\x7bd"

/-- The value of one variable looks like a reference itself. -/
def nestedValue? (name : String) : Option String := if name = "a$\x7bb" then some "$\x7bc\x7d" else none

theorem nested_substituted : ∃ parts tail, Divides nestedText.toList parts tail ∧
    parts.map (fun p => String.ofList p.2) = ["a$\x7bb", "c"] ∧
    substitute nestedValue? nestedText = "$$\x7b\x7d$\x7bc\x7dx$\x7bc\x7d$\x7bd" ∧
    (substitute nestedValue? nestedText).toList = parts.flatMap (fun p => p.1 ++ replacement nestedValue? p.2) ++ tail ∧
    substitute (fun _ => none) nestedText = nestedText := by
  obtain ⟨⟨parts, tail, hdivides⟩, hall⟩ := substitute_of_divides nestedText
  obtain ⟨hnames, hsubstitute⟩ := hall parts tail hdivides
  have hnested : names nestedText = ["a$\x7bb", "c"] := by decide
  exact ⟨parts, tail, hdivides, hnames.symm.trans hnested, by decide, (hsubstitute nestedValue?).1,
    (hsubstitute fun _ => none).2 fun _ _ => rfl⟩

end Substitution
end Dataflow
