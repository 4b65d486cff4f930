/-
  MiniC.Proofs.Strict.Breach

  Operations that have no result everywhere.

  Compiling looks rows up in tables, closes blocks and counts down.  Each such
  operation has a place where it makes no sense: a key that no row has, the
  global frame, zero.  The definitions that run give some result there too.
  In this folder the same work is done by operations that break off instead.
  Breaking off is not a fault of the source: it is a `Breach`, and the
  theorems of this folder say that there is none.

  Here are the computations that may break off, and the table of names.  A name
  is entered in the table when it is read, and spelled from the table when
  something is said about it, so whatever is said of a name that was not read
  before breaks off (`Reading`).
-/
import Mathlib.Data.List.Dedup
import Mathlib.Data.List.Perm.Subperm
import MiniC.Fault
import MiniC.Names
import MiniC.Program
import MiniC.Scope

namespace MiniC

/-- An operation was applied where it has no result. -/
inductive Breach where
  /-- There is no such variable. -/
  | noVariable (v : VarId)
  /-- There is no such function. -/
  | noFunction (f : FuncId)
  /-- There is no such node. -/
  | noNode (index : Nat)
  /-- There is no such place in a run. -/
  | noPlace (index : Nat)
  /-- There is no place before the first one of a run. -/
  | beforeFirst
  /-- There is no such name. -/
  | noName (x : String)
  /-- There is no room for another name. -/
  | tableFull
  /-- The number of points in a numeral was to leave 32 bits. -/
  | tooManyPoints
  /-- The global frame was to be closed. -/
  | globalClosed
  /-- The number of loops was to fall below zero. -/
  | loopsBelowZero
  /-- The indentation was to fall below zero. -/
  | indentBelowZero
  deriving DecidableEq, Repr

namespace Strict

/-! ## §1. Computations -/

/-- What may end in a fault of the source, and may break off. -/
abbrev Checked := ExceptT Fault (Except Breach)

variable {α β : Type}

/-- What does not break off. -/
def sure (r : Except Fault α) : Checked α := .mk (.ok r)

@[simp]
theorem sure_bind_ok (a : α) (f : α → Checked β) : (sure (.ok a) >>= f) = f a := rfl

@[simp]
theorem liftM_ok (a : α) : (liftM (.ok a : Except Breach α) : Checked α) = sure (.ok a) := rfl

@[simp]
theorem pure_eq_sure (a : α) : (pure a : Checked α) = sure (.ok a) := rfl

/-- What is known of a variable, which must be there. -/
def varRow (Γ : Symbols) (v : VarId) : Except Breach VarSymbol :=
  match Γ.var? v with
  | some sym => .ok sym
  | none => .error (.noVariable v)

/-- What is known of a function, which must be there. -/
def funcRow (Γ : Symbols) (f : FuncId) : Except Breach FuncSymbol :=
  match Γ.func? f with
  | some sym => .ok sym
  | none => .error (.noFunction f)

theorem varRow_eq {Γ : Symbols} {v : VarId} {sym : VarSymbol} (h : Γ.var? v = some sym) :
    varRow Γ v = .ok sym := by
  rw [varRow, h]

theorem funcRow_eq {Γ : Symbols} {f : FuncId} {sym : FuncSymbol} (h : Γ.func? f = some sym) :
    funcRow Γ f = .ok sym := by
  rw [funcRow, h]

/-! ## §2. The table of names -/

/-- How many names a table can hold. -/
def capacity : Nat := UInt32.size - 1

/-- Enters a name in a table, which must have room for it. -/
def enter (names : Names) (x : String) : Except Breach Names :=
  if (names.intern x).1.index < capacity then .ok (names.intern x).2 else .error .tableFull

/-- The text of a name, found by its handle, which the table must have. -/
def spell (names : Names) (x : String) : Except Breach String :=
  match names.text? (names.intern x).1 with
  | some text => .ok text
  | none => .error (.noName x)

/-- The names of functions have been entered. -/
def NamesEntered (names : Names) (Γ : Symbols) : Prop :=
  ∀ {f : FuncId} {sym : FuncSymbol}, Γ.func? f = some sym → sym.name ∈ names.texts

/-- A name of the table is found under the handle that entering it gives. -/
theorem spell_eq {names : Names} {x : String} (h : x ∈ names.texts) : spell names x = .ok x := by
  rw [spell, Names.handle_intern, Names.text?_of_mem h]

/-- Names are entered once. -/
theorem nodup_intern {names : Names} (x : String) (h : names.texts.Nodup) :
    (names.intern x).2.texts.Nodup := by
  rw [Names.texts_intern]
  split
  · exact h
  · exact List.nodup_append.2 ⟨h, List.nodup_singleton x, by grind⟩

/-- A handle is a place of the table that entering the name leaves. -/
theorem handle_lt (names : Names) (x : String) :
    (names.intern x).1.index < (names.intern x).2.texts.length := by
  rw [Names.handle_intern, ← Names.idxOf_intern]
  exact List.idxOf_lt_length_of_mem (Names.mem_intern.2 (.inr rfl))

/-- A table that holds some of the names `all`, each once, and has room for the
others. -/
structure Ready (all : List String) (names : Names) : Prop where
  nodup : names.texts.Nodup
  listed : names.texts ⊆ all
  room : all.dedup.length < capacity

/-- **There is room for every name**, if fewer of them are distinct than the
table can hold. -/
theorem Ready.enter {all : List String} {names : Names} {x : String} (h : Ready all names)
    (hx : x ∈ all) :
    enter names x = .ok (names.intern x).2 ∧ Ready all (names.intern x).2 := by
  have hnodup := nodup_intern x h.nodup
  have hlisted : (names.intern x).2.texts ⊆ all := fun y hy =>
    (Names.mem_intern.1 hy).elim (fun hy => h.listed hy) fun hy => hy ▸ hx
  -- the table holds distinct names of `all`, so there are no more of them
  have hlen : (names.intern x).2.texts.length ≤ all.dedup.length :=
    (hnodup.subperm fun y hy => List.mem_dedup.2 (hlisted hy)).length_le
  have hlt : (names.intern x).1.index < capacity := by
    have := handle_lt names x
    have := h.room
    omega
  exact ⟨by rw [Strict.enter, if_pos hlt], hnodup, hlisted, h.room⟩

/-! ## §3. Reading -/

/-- What reads names one after the other: it may end in a fault of the source,
may break off, and keeps the table of the names read so far. -/
abbrev Reading := ExceptT Fault (StateT Names (Except Breach))

/-- Reading as what it does to a table. -/
def reading (f : Names → Except Breach (Except Fault α × Names)) : Reading α := f

/-- What reading does to a table. -/
def Reading.exec (x : Reading α) (names : Names) : Except Breach (Except Fault α × Names) := x names

/-- Reading that starts with an empty table, and the table in the end. -/
def Reading.whole (x : Reading α) : Checked (α × Names) := do
  let (r, names) ← x.exec {}
  return (← sure r, names)

/-- What reads no names. -/
def still (x : Checked α) : Reading α := reading fun names => do return (← x.run, names)

/-- Reads a name, which is entered in the table. -/
def read (x : String) : Reading Unit := reading fun names => do return (.ok (), ← enter names x)

/-- Complains about a name, which is spelled from the table. -/
def complain (cause : String → Cause) (x : String) (line : Nat) : Reading α :=
  reading fun names => do return (.error ⟨cause (← spell names x), line⟩, names)

theorem Reading.exec_bind_ok {x : Reading α} {f : α → Reading β} {names names' : Names} {a : α}
    (h : x.exec names = .ok (.ok a, names')) : (x >>= f).exec names = (f a).exec names' := by
  show (x.exec names >>= fun p => ExceptT.bindCont f p.1 p.2) = _
  rw [h]
  rfl

/-- A fault ends what follows. -/
theorem Reading.exec_bind_error {x : Reading α} {f : α → Reading β} {names names' : Names}
    {fault : Fault} (h : x.exec names = .ok (.error fault, names')) :
    (x >>= f).exec names = .ok (.error fault, names') := by
  show (x.exec names >>= fun p => ExceptT.bindCont f p.1 p.2) = _
  rw [h]
  rfl

theorem exec_still {x : Checked α} {r : Except Fault α} (h : x = sure r) (names : Names) :
    (still x).exec names = .ok (r, names) := by
  rw [h]
  rfl

/-- What is said of a name that was read has no breach. -/
theorem exec_complain {cause : String → Cause} {x : String} {line : Nat} {names : Names}
    (h : x ∈ names.texts) :
    (complain cause x line : Reading α).exec names = .ok (.error ⟨cause x, line⟩, names) := by
  simp only [complain, reading, Reading.exec, spell_eq h]
  rfl

end Strict

end MiniC
