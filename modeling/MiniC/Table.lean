/-
  MiniC.Table

  Rows numbered in the order in which they were added.

  The number of a row is its key.  Rows are never removed, so a key stays
  valid, and a key that no row has yet finds nothing.
-/

namespace MiniC

/-- Rows in the order in which they were added. -/
structure Table (α : Type) where
  /-- The rows; a row's key is its place. -/
  rows : Array α := #[]
  deriving DecidableEq, Repr

namespace Table

variable {α : Type}

/-- No rows yet. -/
def empty : Table α := {}

/-- A key that no row has. -/
inductive LookupError where
  /-- There is no row with that key. -/
  | missing
  deriving DecidableEq, Repr

/-- What is said of a failed look-up. -/
def LookupError.message : LookupError → String
  | .missing => "key not found"

/-- How many rows there are. -/
def size (t : Table α) : Nat := t.rows.size

/-- Adds a row; its key is the number of rows before it. -/
def insert (t : Table α) (row : α) : Nat × Table α := (t.rows.size, ⟨t.rows.push row⟩)

/-- The row with a key. -/
def get? (t : Table α) (key : Nat) : Option α := t.rows[key]?

/-- The row with a key, or why there is none. -/
def get (t : Table α) (key : Nat) : Except LookupError α :=
  match t.get? key with
  | some row => .ok row
  | none => .error .missing

/-- Replaces a row by what `f` makes of it; nothing happens if there is none. -/
def modify (t : Table α) (key : Nat) (f : α → α) : Table α := ⟨t.rows.modify key f⟩

/-- Replaces the row with a key. -/
def set (t : Table α) (key : Nat) (row : α) : Except LookupError (Table α) :=
  if key < t.rows.size then .ok (t.modify key fun _ => row) else .error .missing

/-- All rows with their keys, in order. -/
def toList (t : Table α) : List (Nat × α) :=
  t.rows.toList.zipIdx.map fun (row, key) => (key, row)

/-- The rows on one line between braces, each after its key. -/
def listing (key : Nat → String) (row : α → String) (t : Table α) : String :=
  "\x7b" ++ ", ".intercalate (t.toList.map fun (k, r) => key k ++ ": " ++ row r) ++ "\x7d"

/-- A row just added is found under its key. -/
theorem get?_insert (t : Table α) (row : α) :
    (t.insert row).2.get? (t.insert row).1 = some row := by
  simp [insert, get?]

/-- Adding a row leaves those before it as they were. -/
theorem get?_insert_of_lt {t : Table α} {row : α} {key : Nat} (h : key < t.size) :
    (t.insert row).2.get? key = t.get? key := by
  simp only [size] at h
  simp [insert, get?, Array.getElem?_push, Nat.ne_of_lt h]

/-- A key finds a row exactly if it is below their number. -/
theorem isSome_get? {t : Table α} {key : Nat} : (t.get? key).isSome ↔ key < t.size := by
  simp [get?, size]

end Table

end MiniC
