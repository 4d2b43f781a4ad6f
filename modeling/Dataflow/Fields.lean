/-! # Named fields

Names with a value each, in the order in which the names were first given. Giving a name again replaces
its value where it stands. -/

namespace Dataflow

abbrev Fields (α : Type) := List (String × α)

namespace Fields

variable {α : Type}

def get? (name : String) : Fields α → Option α
  | [] => none
  | (n, x) :: rest => if n = name then some x else get? name rest

def has (fs : Fields α) (name : String) : Bool := (get? name fs).isSome

def put (name : String) (x : α) : Fields α → Fields α
  | [] => [(name, x)]
  | (n, y) :: rest => if n = name then (n, x) :: rest else (n, y) :: put name x rest

def names (fs : Fields α) : List String := fs.map (·.1)

theorem get?_put_self (name : String) (x : α) (fs : Fields α) : get? name (put name x fs) = some x := by
  induction fs with
  | nil => simp [put, get?]
  | cons p rest ih =>
    obtain ⟨n, y⟩ := p
    by_cases h : n = name <;> simp [put, get?, h, ih]

theorem get?_put_of_ne {name other : String} (h : name ≠ other) (x : α) (fs : Fields α) :
    get? other (put name x fs) = get? other fs := by
  induction fs with
  | nil => simp [put, get?, h]
  | cons p rest ih =>
    obtain ⟨n, y⟩ := p
    by_cases hn : n = name
    · subst hn; simp [put, get?, h]
    · by_cases ho : n = other
      · subst ho; simp [put, get?, hn]
      · simp [put, get?, hn, ho, ih]

/-- A known name keeps its place and a new one comes last. -/
theorem names_put (name : String) (x : α) (fs : Fields α) :
    names (put name x fs) = if name ∈ names fs then names fs else names fs ++ [name] := by
  induction fs with
  | nil => simp [put, names]
  | cons p rest ih =>
    obtain ⟨n, y⟩ := p
    by_cases h : n = name
    · subst h; simp [put, names]
    · have h' : name ≠ n := fun e => h e.symm
      simp only [put, h, if_false, names, List.map_cons, List.mem_cons, h', false_or] at ih ⊢
      rw [show List.map (fun p => p.1) (put name x rest) = names (put name x rest) from rfl, names, ih]
      split <;> simp_all

theorem nodup_names_put {fs : Fields α} (name : String) (x : α) (h : (names fs).Nodup) :
    (names (put name x fs)).Nodup := by
  rw [names_put]
  split
  · exact h
  · refine List.nodup_append.mpr ⟨h, by simp, ?_⟩
    rintro n hn _ (_ | ⟨_, ⟨⟩⟩) rfl
    contradiction

theorem mem_put {name : String} {x : α} {fs : Fields α} {p : String × α} (h : p ∈ put name x fs) :
    p = (name, x) ∨ p ∈ fs := by
  induction fs with
  | nil => exact .inl (List.mem_singleton.mp h)
  | cons q rest ih =>
    obtain ⟨n, y⟩ := q
    by_cases hn : n = name
    · subst hn
      simp only [put, if_true, List.mem_cons] at h
      exact h.imp_right (List.mem_cons_of_mem _)
    · simp only [put, hn, if_false, List.mem_cons] at h
      rcases h with rfl | h
      · exact .inr List.mem_cons_self
      · exact (ih h).imp_right (List.mem_cons_of_mem _)

theorem mem_of_get? {name : String} {x : α} {fs : Fields α} (h : get? name fs = some x) : (name, x) ∈ fs := by
  induction fs with
  | nil => cases h
  | cons q rest ih =>
    obtain ⟨n, y⟩ := q
    by_cases hn : n = name
    · simp only [get?, hn, if_true, Option.some.injEq] at h
      rw [hn, h]
      exact List.mem_cons_self
    · rw [get?, if_neg hn] at h
      exact List.mem_cons_of_mem _ (ih h)

theorem get?_of_mem {name : String} {x : α} {fs : Fields α} (hfs : (names fs).Nodup) (h : (name, x) ∈ fs) :
    get? name fs = some x := by
  induction fs with
  | nil => cases h
  | cons q rest ih =>
    obtain ⟨n, y⟩ := q
    obtain ⟨hn, hrest⟩ := List.nodup_cons.mp hfs
    rcases List.mem_cons.mp h with heq | h
    · cases heq
      simp [get?]
    · have hmem : name ∈ names rest := List.mem_map_of_mem h
      have hne : n ≠ name := fun e => hn (e ▸ hmem)
      rw [get?, if_neg hne]
      exact ih hrest h

/-- Giving a name the value that it has changes nothing. -/
theorem put_of_get? {name : String} {x : α} {fs : Fields α} (h : get? name fs = some x) : put name x fs = fs := by
  induction fs with
  | nil => cases h
  | cons q rest ih =>
    obtain ⟨n, y⟩ := q
    by_cases hn : n = name
    · simp only [get?, hn, if_true, Option.some.injEq] at h
      simp [put, hn, h]
    · rw [get?, if_neg hn] at h
      rw [put, if_neg hn, ih h]

theorem put_of_not_mem {name : String} {x : α} {fs : Fields α} (h : name ∉ names fs) :
    put name x fs = fs ++ [(name, x)] := by
  induction fs with
  | nil => rfl
  | cons p rest ih =>
    obtain ⟨n, y⟩ := p
    simp only [names, List.map_cons, List.mem_cons, not_or] at h
    rw [put, if_neg (Ne.symm h.1), ih h.2]
    rfl

/-- Giving distinct names one after the other gives them in that order. -/
theorem foldl_put {fs acc : Fields α} (hfs : (names fs).Nodup) (hacc : ∀ name ∈ names acc, name ∉ names fs) :
    fs.foldl (fun acc p => put p.1 p.2 acc) acc = acc ++ fs := by
  induction fs generalizing acc with
  | nil => simp
  | cons p rest ih =>
    obtain ⟨hp, hrest⟩ := List.nodup_cons.mp hfs
    have hfresh : p.1 ∉ names acc := fun h => hacc p.1 h List.mem_cons_self
    have hacc' : ∀ name ∈ names (acc ++ [p]), name ∉ names rest := by
      intro name hname
      rw [names, List.map_append] at hname
      rcases List.mem_append.mp hname with hname | hname
      · exact fun h => hacc name hname (List.mem_cons_of_mem _ h)
      · rw [List.mem_singleton.mp hname]
        exact hp
    rw [List.foldl_cons, put_of_not_mem hfresh, ih hrest hacc', List.append_assoc]
    rfl

theorem get?_foldl_put_of_not_mem {name : String} {fs acc : Fields α} (h : name ∉ names fs) :
    get? name (fs.foldl (fun acc p => put p.1 p.2 acc) acc) = get? name acc := by
  induction fs generalizing acc with
  | nil => rfl
  | cons p rest ih =>
    simp only [names, List.map_cons, List.mem_cons, not_or] at h
    rw [List.foldl_cons, ih h.2, get?_put_of_ne (Ne.symm h.1)]

/-- Of distinct names that are given one after the other, each has the value that it was given. -/
theorem get?_foldl_put {name : String} {x : α} {fs acc : Fields α} (hfs : (names fs).Nodup) (h : (name, x) ∈ fs) :
    get? name (fs.foldl (fun acc p => put p.1 p.2 acc) acc) = some x := by
  induction fs generalizing acc with
  | nil => cases h
  | cons p rest ih =>
    obtain ⟨hp, hrest⟩ := List.nodup_cons.mp hfs
    rw [List.foldl_cons]
    rcases List.mem_cons.mp h with rfl | h
    · rw [get?_foldl_put_of_not_mem hp, get?_put_self]
    · exact ih hrest h

end Fields

end Dataflow
