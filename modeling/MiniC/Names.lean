/-
  MiniC.Names

  A table of distinct names.

  Interning a name gives its handle: the place it has in the table, which is
  the order in which names were first interned.  Interning a known name again
  changes nothing, so equal handles mean equal names and handles stay valid
  for good.
-/

namespace MiniC

/-- The place of a name in a table. -/
structure Handle where
  /-- How many names were interned before it. -/
  index : Nat
  deriving DecidableEq, Repr, Ord

/-- Distinct names, in the order in which they were first interned. -/
structure Names where
  /-- The names, each once. -/
  texts : List String := []
  deriving DecidableEq, Repr

namespace Names

/-- No names yet. -/
def empty : Names := {}

/-- A handle that belongs to another table. -/
inductive LookupError where
  /-- The table has no name at that place. -/
  | unknown
  deriving DecidableEq, Repr

/-- What is said of a failed look-up. -/
def LookupError.message : LookupError → String
  | .unknown => "string not in interner"

/-- The handle of a name, which enters the table if it is new. -/
def intern (names : Names) (text : String) : Handle × Names :=
  match names.texts.idxOf? text with
  | some i => (⟨i⟩, names)
  | none => (⟨names.texts.length⟩, ⟨names.texts ++ [text]⟩)

/-- The name with a handle. -/
def text? (names : Names) (h : Handle) : Option String := names.texts[h.index]?

/-- The name with a handle, or why there is none. -/
def text (names : Names) (h : Handle) : Except LookupError String :=
  match names.text? h with
  | some s => .ok s
  | none => .error .unknown

/-- How many distinct names there are. -/
def size (names : Names) : Nat := names.texts.length

/-- There are no names. -/
def isEmpty (names : Names) : Bool := names.texts.isEmpty

/-- Interns one name after another. -/
def internAll (names : Names) (texts : List String) : Names :=
  texts.foldl (fun ns t => (ns.intern t).2) names

/-- A known name keeps its handle and leaves the table as it is. -/
theorem intern_of_mem {names : Names} {text : String} {i : Nat}
    (h : names.texts.idxOf? text = some i) : names.intern text = (⟨i⟩, names) := by
  simp [intern, h]

/-- A new name enters at the end. -/
theorem intern_of_not_mem {names : Names} {text : String} (h : text ∉ names.texts) :
    names.intern text = (⟨names.size⟩, ⟨names.texts ++ [text]⟩) := by
  simp [intern, size, List.idxOf?_eq_none_iff.2 h]

/-- A handle is the first place of the name, or the first free place. -/
theorem handle_intern (names : Names) (x : String) :
    (names.intern x).1 = ⟨names.texts.idxOf x⟩ := by
  by_cases h : x ∈ names.texts
  · obtain ⟨i, hi⟩ := Option.isSome_iff_exists.1 (List.isSome_idxOf?.2 h)
    rw [intern_of_mem hi]
    exact congrArg Handle.mk (List.findIdx?_eq_some_iff_findIdx_eq.1 hi).2.symm
  · rw [intern_of_not_mem h, List.idxOf_eq_length h]
    rfl

/-- Interning a name adds it if it is new. -/
theorem texts_intern (names : Names) (x : String) :
    (names.intern x).2.texts = if x ∈ names.texts then names.texts else names.texts ++ [x] := by
  by_cases h : x ∈ names.texts
  · obtain ⟨i, hi⟩ := Option.isSome_iff_exists.1 (List.isSome_idxOf?.2 h)
    rw [intern_of_mem hi, if_pos h]
  · rw [intern_of_not_mem h, if_neg h]

/-- Entering a name adds that name. -/
theorem mem_intern {names : Names} {x y : String} :
    y ∈ (names.intern x).2.texts ↔ y ∈ names.texts ∨ y = x := by
  rw [texts_intern]
  split
  · rename_i h
    exact ⟨.inl, fun hy => hy.elim id fun hyx => hyx ▸ h⟩
  · simp

/-- A new name is given the first free place, which is where it is put. -/
theorem idxOf_intern (names : Names) (x : String) :
    (names.intern x).2.texts.idxOf x = names.texts.idxOf x := by
  rw [texts_intern]
  split
  · rfl
  · rename_i h
    rw [List.idxOf_append, if_neg h, List.idxOf_eq_length h, List.idxOf_cons_self, Nat.zero_add]

theorem text?_of_mem {names : Names} {x : String} (h : x ∈ names.texts) :
    names.text? ⟨names.texts.idxOf x⟩ = some x :=
  List.getElem?_eq_some_iff.2 ⟨List.idxOf_lt_length_of_mem h, List.getElem_idxOf _⟩

theorem text?_intern (names : Names) (x : String) :
    (names.intern x).2.text? (names.intern x).1 = some x := by
  rw [handle_intern, ← idxOf_intern]
  exact text?_of_mem (mem_intern.2 (.inr rfl))

/-- One name more among distinct names. -/
theorem eraseDups_concat (xs : List String) (x : String) :
    (xs ++ [x]).eraseDups = if x ∈ xs then xs.eraseDups else xs.eraseDups ++ [x] := by
  rw [List.eraseDups_append]
  by_cases h : x ∈ xs
  · simp [List.removeAll, h]
  · simp [List.removeAll, h, List.eraseDups_cons]

end Names

end MiniC
