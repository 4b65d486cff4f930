/-
  MiniC.Proofs.Typing.Tables

  The tables and scopes that grow while a program is checked.

    • a variable or function that is entered gets the next place, and all
      that was found before stays (`extends_withVar`, `extends_withFunc`,
      `extends_define`),
    • the global frame names the functions of the table, each by its own name
      (`Scope.Names`), so no two share one (`Names.unique`),
    • which functions are defined and which are imported can be read off two
      lists (`Symbols.Tracks`).
-/
import Mathlib.Data.List.Nodup
import MiniC.Proofs.Typing.Exprs

namespace MiniC

variable {name : String} {b : Binding} {s s' : Scope}

/-! ## §1. The table of variables -/

/-- A row that is found was there before or is the one just added. -/
theorem Table.get?_of_insert {α : Type} {t : Table α} {row r : α} {key : Nat}
    (h : (t.insert row).2.get? key = some r) :
    t.get? key = some r ∨ (key = t.size ∧ r = row) := by
  by_cases hlt : key < t.size
  · exact .inl ((Table.get?_insert_of_lt hlt).symm.trans h)
  · have hlt' : key < (t.insert row).2.size := Table.isSome_get?.1 (by rw [h]; rfl)
    have hsize : (t.insert row).2.size = t.size + 1 := by simp [Table.insert, Table.size]
    have hkey : key = t.size := by omega
    rw [hkey] at h
    exact .inr ⟨hkey, Option.some.inj (h.symm.trans (Table.get?_insert t row))⟩

/-- Adding a row keeps those that were found. -/
theorem Table.get?_insert_of_some {α : Type} {t : Table α} {row r : α} {key : Nat}
    (h : t.get? key = some r) : (t.insert row).2.get? key = some r :=
  (Table.get?_insert_of_lt (Table.isSome_get?.1 (by rw [h]; rfl))).trans h

/-- No row has the next key. -/
theorem Table.get?_size {α : Type} (t : Table α) : t.get? t.size = none := by
  simp [Table.get?, Table.size]

/-- A variable more in the table. -/
def Symbols.withVar (Γ : Symbols) (sym : VarSymbol) : Symbols :=
  { Γ with vars := (Γ.vars.insert sym).2 }

/-- The place that the next variable gets. -/
def Symbols.nextVar (Γ : Symbols) : VarId := ⟨Γ.vars.size⟩

theorem Symbols.var?_nextVar (Γ : Symbols) : Γ.var? Γ.nextVar = none := Table.get?_size _

theorem Symbols.var?_withVar_nextVar (Γ : Symbols) (sym : VarSymbol) :
    (Γ.withVar sym).var? Γ.nextVar = some sym :=
  Table.get?_insert Γ.vars sym

theorem Symbols.var?_withVar {Γ : Symbols} {v : VarId} {sym sym' : VarSymbol}
    (h : Γ.var? v = some sym') : (Γ.withVar sym).var? v = some sym' :=
  Table.get?_insert_of_some h

theorem Symbols.extends_withVar (Γ : Symbols) (sym : VarSymbol) : Γ.Extends (Γ.withVar sym) :=
  ⟨fun h => Symbols.var?_withVar h, fun h => ⟨_, h, rfl, rfl, rfl⟩⟩

/-- A variable with a value keeps the table valued. -/
theorem Symbols.Valued.withVar {Γ : Symbols} (h : Γ.Valued) {sym : VarSymbol}
    (hne : sym.ty ≠ .void) : (Γ.withVar sym).Valued := by
  refine ⟨fun hv => ?_, h.func⟩
  rcases Table.get?_of_insert hv with hv | ⟨_, rfl⟩
  · exact h.var hv
  · exact hne

/-! ## §2. The table of functions -/

namespace Symbols

variable {f : FuncId} {sym : FuncSymbol}

/-- A function more in the table. -/
def withFunc (Γ : Symbols) (sym : FuncSymbol) : Symbols :=
  { Γ with funcs := (Γ.funcs.insert sym).2 }

/-- The place that the next function gets. -/
def nextFunc (Γ : Symbols) : FuncId := ⟨Γ.funcs.size⟩

/-- A function has a body. -/
def define (Γ : Symbols) (f : FuncId) : Symbols :=
  { Γ with funcs := Γ.funcs.modify f.index fun sym => { sym with state := .defined } }

variable {Γ : Symbols}

theorem func?_nextFunc (Γ : Symbols) : Γ.func? Γ.nextFunc = none := Table.get?_size _

theorem func?_withFunc_nextFunc (Γ : Symbols) (sym : FuncSymbol) :
    (Γ.withFunc sym).func? Γ.nextFunc = some sym :=
  Table.get?_insert Γ.funcs sym

theorem func?_withFunc {sym' : FuncSymbol} (h : Γ.func? f = some sym') :
    (Γ.withFunc sym).func? f = some sym' :=
  Table.get?_insert_of_some h

/-- A function is an old one or the new one. -/
theorem func?_of_withFunc {sym' : FuncSymbol} (h : (Γ.withFunc sym).func? f = some sym') :
    Γ.func? f = some sym' ∨ (f = Γ.nextFunc ∧ sym' = sym) := by
  rcases Table.get?_of_insert h with h | ⟨hkey, rfl⟩
  · exact .inl h
  · exact .inr ⟨congrArg FuncId.mk hkey, rfl⟩

theorem extends_withFunc (Γ : Symbols) (sym : FuncSymbol) : Γ.Extends (Γ.withFunc sym) :=
  ⟨fun h => h, fun h => ⟨_, func?_withFunc h, rfl, rfl, rfl⟩⟩

/-- A function with valued parameters keeps the table valued. -/
theorem Valued.withFunc (h : Γ.Valued) (hne : ∀ ty ∈ sym.params, ty ≠ .void) :
    (Γ.withFunc sym).Valued := by
  refine ⟨h.var, fun hf => ?_⟩
  rcases func?_of_withFunc hf with hf | ⟨_, rfl⟩
  · exact h.func hf
  · exact hne

theorem func?_define_self (h : Γ.func? f = some sym) :
    (Γ.define f).func? f = some { sym with state := .defined } := by
  have h : Γ.funcs.rows[f.index]? = some sym := h
  simp [define, func?, Table.get?, Table.modify, Array.getElem?_modify, h]

theorem func?_define_of_ne {g : FuncId} (h : g ≠ f) : (Γ.define f).func? g = Γ.func? g := by
  have h : f.index ≠ g.index := fun heq => h (by cases f; cases g; cases heq; rfl)
  simp [define, func?, Table.get?, Table.modify, Array.getElem?_modify, h]

/-- A function of the new table is the one defined, or as it was. -/
theorem func?_of_define {g : FuncId} (h : (Γ.define f).func? g = some sym) :
    (g ≠ f ∧ Γ.func? g = some sym) ∨
      (g = f ∧ ∃ sym', Γ.func? f = some sym' ∧ sym = { sym' with state := .defined }) := by
  by_cases hg : g = f
  · subst hg
    cases hf : Γ.func? g with
    | none =>
      have hf : Γ.funcs.rows[g.index]? = none := hf
      simp [define, func?, Table.get?, Table.modify, Array.getElem?_modify, hf] at h
    | some sym' =>
      rw [func?_define_self hf] at h
      cases h
      exact .inr ⟨rfl, sym', rfl, rfl⟩
  · rw [func?_define_of_ne hg] at h
    exact .inl ⟨hg, h⟩

/-- Defining a function loses no row. -/
theorem extends_define (Γ : Symbols) (f : FuncId) : Γ.Extends (Γ.define f) := by
  refine ⟨fun h => h, fun {g sym} h => ?_⟩
  by_cases hg : g = f
  · subst hg
    exact ⟨_, func?_define_self h, rfl, rfl, rfl⟩
  · exact ⟨sym, (func?_define_of_ne hg).trans h, rfl, rfl, rfl⟩

/-- It keeps the table valued. -/
theorem Valued.define (h : Γ.Valued) (f : FuncId) : (Γ.define f).Valued := by
  refine ⟨h.var, fun {g sym} hg => ?_⟩
  rcases func?_of_define hg with ⟨_, hg⟩ | ⟨_, sym', hf, rfl⟩
  · exact h.func hg
  · have hne := h.func hf
    exact hne

end Symbols

/-! ## §3. Scopes -/

theorem mem_of_lookup {frame : Frame} (h : frame.lookup name = some b) : (name, b) ∈ frame := by
  obtain ⟨l₁, l₂, rfl, _⟩ := List.lookup_eq_some_iff.1 h
  simp

/-- A name means what some open frame says. -/
theorem Scope.mem_of_get? (h : s.get? name = some b) :
    (∃ frame ∈ s.inner, (name, b) ∈ frame) ∨ (name, b) ∈ s.outer := by
  obtain ⟨frame, hframe, hl⟩ := List.exists_of_findSome?_eq_some h
  rcases List.mem_append.1 hframe with hi | ho
  · exact .inl ⟨frame, hi, mem_of_lookup hl⟩
  · rw [List.mem_singleton.1 ho] at hl
    exact .inr (mem_of_lookup hl)

/-- A name can be added if the innermost frame does not have it. -/
theorem Scope.exists_add_iff : (∃ s', s.add name b = .ok s') ↔ s.top.lookup name = none := by
  unfold Scope.add
  cases s.top.lookup name with
  | some first =>
    refine iff_of_false ?_ (Option.some_ne_none first)
    rintro ⟨s', h⟩
    cases h
  | none =>
    refine iff_of_true ?_ rfl
    cases s.inner with
    | nil => exact ⟨_, rfl⟩
    | cons frame frames => exact ⟨_, rfl⟩

/-- Adding a name in a block changes the innermost frame only. -/
theorem Scope.add_inner {frame : Frame} {frames : List Frame} (hi : s.inner = frame :: frames)
    (h : s.add name b = .ok s') :
    s'.inner = ((name, b) :: frame) :: frames ∧ s'.outer = s.outer := by
  unfold Scope.add at h
  split at h
  · cases h
  · rw [hi] at h
    cases h
    exact ⟨rfl, rfl⟩

/-- Outside all blocks a name is added to the global frame, which did not have
it. -/
theorem Scope.add_outer (hi : s.inner = []) (h : s.add name b = .ok s') :
    s'.inner = [] ∧ s'.outer = (name, b) :: s.outer ∧ s.outer.lookup name = none := by
  unfold Scope.add at h
  split at h
  · cases h
  · rename_i hl
    rw [hi] at h
    cases h
    have htop : s.top = s.outer := by rw [Scope.top, hi, List.headD_nil]
    exact ⟨rfl, rfl, htop ▸ hl⟩

/-- Adding a name opens and closes no block. -/
theorem Scope.length_of_add (h : s.add name b = .ok s') : s'.inner.length = s.inner.length := by
  cases hi : s.inner with
  | nil => rw [(add_outer hi h).1]
  | cons frame frames => simp [(add_inner hi h).1]

/-- The global frame is the only one, and names variables among `G` and the
functions of the table, each by its own name. -/
structure Scope.Names (s : Scope) (Γ : Symbols) (G : List VarId) : Prop where
  inner : s.inner = []
  vars : ∀ {name : String} {v : VarId}, (name, Binding.var v) ∈ s.outer → v ∈ G
  funcs : ∀ {name : String} {f : FuncId}, (name, Binding.func f) ∈ s.outer →
    ∃ sym, Γ.func? f = some sym ∧ sym.name = name
  names : ∀ {f : FuncId} {sym : FuncSymbol}, Γ.func? f = some sym →
    s.outer.lookup sym.name = some (.func f)

namespace Scope

/-- Outside all blocks a name means what the global frame says. -/
theorem get?_of_inner {s : Scope} (h : s.inner = []) (name : String) :
    s.get? name = s.outer.lookup name := by
  rw [get?, h, List.nil_append, List.findSome?_cons]
  cases s.outer.lookup name <;> rfl

/-- A name that is not in a frame stays apart from those that are. -/
theorem lookup_cons_of_lookup {frame : Frame} {name name' : String} {b b' : Binding}
    (hnone : frame.lookup name = none) (h : frame.lookup name' = some b') :
    List.lookup name' ((name, b) :: frame) = some b' := by
  have hne : (name' == name) = false := by
    rw [beq_eq_false_iff_ne]
    rintro rfl
    rw [hnone] at h
    cases h
  rw [List.lookup_cons, hne]
  exact h

variable {s s' : Scope} {Γ Γ' : Symbols} {G : List VarId}

/-- No two functions share a name. -/
theorem Names.unique (h : s.Names Γ G) {f g : FuncId} {sym sym' : FuncSymbol}
    (hf : Γ.func? f = some sym) (hg : Γ.func? g = some sym') (heq : sym.name = sym'.name) :
    f = g := by
  have hlookup := h.names hf
  rw [heq, h.names hg] at hlookup
  cases hlookup
  rfl

/-- A new function is added under its name. -/
theorem Names.withFunc (h : s.Names Γ G) {sym : FuncSymbol}
    (hadd : s.add sym.name (.func Γ.nextFunc) = .ok s') : s'.Names (Γ.withFunc sym) G := by
  obtain ⟨hinner, houter, hnone⟩ := add_outer h.inner hadd
  refine ⟨hinner, fun {name v} hv => ?_, fun {name f} hf => ?_, fun {f sym'} hf => ?_⟩
  · rw [houter] at hv
    rcases List.mem_cons.1 hv with heq | hv
    · cases heq
    · exact h.vars hv
  · rw [houter] at hf
    rcases List.mem_cons.1 hf with heq | hf
    · cases heq
      exact ⟨sym, Symbols.func?_withFunc_nextFunc _ _, rfl⟩
    · obtain ⟨sym', hf, hname⟩ := h.funcs hf
      exact ⟨sym', Symbols.func?_withFunc hf, hname⟩
  · rw [houter]
    rcases Symbols.func?_of_withFunc hf with hf | ⟨rfl, rfl⟩
    · exact lookup_cons_of_lookup hnone (h.names hf)
    · exact List.lookup_cons_self

/-- A new variable is added, and the functions stay as they are. -/
theorem Names.withVar (h : s.Names Γ G) (hfunc : ∀ f, Γ'.func? f = Γ.func? f) {name : String}
    {v : VarId} (hadd : s.add name (.var v) = .ok s') : s'.Names Γ' (G ++ [v]) := by
  obtain ⟨hinner, houter, hnone⟩ := add_outer h.inner hadd
  refine ⟨hinner, fun {name v} hv => ?_, fun {name f} hf => ?_, fun {f sym} hf => ?_⟩
  · rw [houter] at hv
    rcases List.mem_cons.1 hv with heq | hv
    · cases heq
      exact List.mem_append_right _ (List.mem_singleton_self _)
    · exact List.mem_append_left _ (h.vars hv)
  · rw [houter] at hf
    rcases List.mem_cons.1 hf with heq | hf
    · cases heq
    · obtain ⟨sym, hf, hname⟩ := h.funcs hf
      exact ⟨sym, (hfunc f).trans hf, hname⟩
  · rw [houter]
    exact lookup_cons_of_lookup hnone (h.names ((hfunc f).symm.trans hf))

/-- The table may learn more of its functions, but not new ones. -/
theorem Names.mono (h : s.Names Γ G) (hext : Γ.Extends Γ')
    (hback : ∀ {f : FuncId} {sym' : FuncSymbol}, Γ'.func? f = some sym' →
      ∃ sym, Γ.func? f = some sym ∧ sym.name = sym'.name) : s.Names Γ' G := by
  refine ⟨h.inner, h.vars, fun {name f} hf => ?_, fun {f sym'} hf => ?_⟩
  · obtain ⟨sym, hf, hname⟩ := h.funcs hf
    obtain ⟨sym', hf', hname', _⟩ := hext.func hf
    exact ⟨sym', hf', hname'.trans hname⟩
  · obtain ⟨sym, hf, hname⟩ := hback hf
    rw [← hname]
    exact h.names hf

end Scope

/-! ## §4. Functions that are defined and imported -/

theorem nodup_append_singleton {α : Type} {l : List α} {a : α} (h : l.Nodup) (ha : a ∉ l) :
    (l ++ [a]).Nodup := by
  rw [← List.concat_eq_append]
  exact h.concat ha

/-- A function of the table is defined exactly if it is in the first list, and
imported exactly if it is in the second. -/
structure Symbols.Tracks (Γ : Symbols) (ids imports : List FuncId) : Prop where
  ids_nodup : ids.Nodup
  imports_nodup : imports.Nodup
  ids_known : ∀ f ∈ ids, (Γ.func? f).isSome
  imports_known : ∀ f ∈ imports, (Γ.func? f).isSome
  defined : ∀ {f : FuncId} {sym : FuncSymbol}, Γ.func? f = some sym →
    (sym.state = .defined ↔ f ∈ ids)
  imported : ∀ {f : FuncId} {sym : FuncSymbol}, Γ.func? f = some sym →
    (sym.state = .imported ↔ f ∈ imports)

namespace Symbols

variable {Γ Γ' : Symbols} {ids imports : List FuncId}
variable {f : FuncId} {sym : FuncSymbol}

theorem Extends.isSome_func? (h : Γ.Extends Γ') (hf : (Γ.func? f).isSome) :
    (Γ'.func? f).isSome := by
  obtain ⟨sym, hf⟩ := Option.isSome_iff_exists.1 hf
  obtain ⟨sym', hf', _⟩ := h.func hf
  exact Option.isSome_iff_exists.2 ⟨sym', hf'⟩

/-- What follows from the functions of the table alone. -/
theorem Tracks.congr (h : Γ.Tracks ids imports) (hfunc : ∀ f, Γ'.func? f = Γ.func? f) :
    Γ'.Tracks ids imports :=
  ⟨h.ids_nodup, h.imports_nodup, fun f hf => hfunc f ▸ h.ids_known f hf,
    fun f hf => hfunc f ▸ h.imports_known f hf, fun {f _} hf => h.defined (hfunc f ▸ hf),
    fun {f _} hf => h.imported (hfunc f ▸ hf)⟩

/-- No function is both. -/
theorem Tracks.apart (h : Γ.Tracks ids imports) (himp : f ∈ imports) : f ∉ ids := by
  intro hid
  obtain ⟨sym, hf⟩ := Option.isSome_iff_exists.1 (h.imports_known f himp)
  have hstate := (h.imported hf).2 himp
  rw [(h.defined hf).2 hid] at hstate
  cases hstate

/-- The next function is in neither list. -/
theorem Tracks.nextFunc_notMem (h : Γ.Tracks ids imports) :
    Γ.nextFunc ∉ ids ∧ Γ.nextFunc ∉ imports := by
  constructor
  · intro hmem
    have hknown := h.ids_known _ hmem
    rw [func?_nextFunc] at hknown
    cases hknown
  · intro hmem
    have hknown := h.imports_known _ hmem
    rw [func?_nextFunc] at hknown
    cases hknown

/-- A function of the new table is the new one, or another that was there. -/
theorem func?_of_withFunc_ne {sym' : FuncSymbol} (h : (Γ.withFunc sym).func? f = some sym') :
    (Γ.func? f = some sym' ∧ f ≠ Γ.nextFunc) ∨ (f = Γ.nextFunc ∧ sym' = sym) := by
  refine (func?_of_withFunc h).imp_left fun hf => ⟨hf, ?_⟩
  rintro rfl
  rw [func?_nextFunc] at hf
  cases hf

/-- A function that is declared is in neither list... -/
theorem Tracks.declare (h : Γ.Tracks ids imports) (hstate : sym.state = .declared) :
    (Γ.withFunc sym).Tracks ids imports := by
  have hext := extends_withFunc Γ sym
  refine ⟨h.ids_nodup, h.imports_nodup, fun f hf => hext.isSome_func? (h.ids_known f hf),
    fun f hf => hext.isSome_func? (h.imports_known f hf), fun {f sym'} hf => ?_,
    fun {f sym'} hf => ?_⟩
  · rcases func?_of_withFunc hf with hf | ⟨rfl, rfl⟩
    · exact h.defined hf
    · rw [hstate]
      exact iff_of_false nofun h.nextFunc_notMem.1
  · rcases func?_of_withFunc hf with hf | ⟨rfl, rfl⟩
    · exact h.imported hf
    · rw [hstate]
      exact iff_of_false nofun h.nextFunc_notMem.2

/-- ... one of the host is imported... -/
theorem Tracks.importFunc (h : Γ.Tracks ids imports) (hstate : sym.state = .imported) :
    (Γ.withFunc sym).Tracks ids (imports ++ [Γ.nextFunc]) := by
  have hext := extends_withFunc Γ sym
  refine ⟨h.ids_nodup, nodup_append_singleton h.imports_nodup h.nextFunc_notMem.2,
    fun f hf => hext.isSome_func? (h.ids_known f hf), fun f hf => ?_, fun {f sym'} hf => ?_,
    fun {f sym'} hf => ?_⟩
  · rcases List.mem_append.1 hf with hf | hf
    · exact hext.isSome_func? (h.imports_known f hf)
    · rw [List.mem_singleton.1 hf, func?_withFunc_nextFunc]
      rfl
  · rcases func?_of_withFunc hf with hf | ⟨rfl, rfl⟩
    · exact h.defined hf
    · rw [hstate]
      exact iff_of_false nofun h.nextFunc_notMem.1
  · rw [List.mem_append, List.mem_singleton]
    rcases func?_of_withFunc_ne hf with ⟨hf, hne⟩ | ⟨rfl, rfl⟩
    · rw [h.imported hf]
      exact ⟨.inl, fun hmem => hmem.resolve_right hne⟩
    · exact iff_of_true hstate (.inr rfl)

/-- ... and one that gets a body is defined. -/
theorem Tracks.define (h : Γ.Tracks ids imports) (hf : Γ.func? f = some sym)
    (hdef : sym.state ≠ .defined) (himp : sym.state ≠ .imported) :
    (Γ.define f).Tracks (ids ++ [f]) imports := by
  have hext := extends_define Γ f
  have hnotDefined : f ∉ ids := fun hmem => hdef ((h.defined hf).2 hmem)
  have hnotImported : f ∉ imports := fun hmem => himp ((h.imported hf).2 hmem)
  refine ⟨nodup_append_singleton h.ids_nodup hnotDefined, h.imports_nodup, fun g hg => ?_,
    fun g hg => hext.isSome_func? (h.imports_known g hg), fun {g sym'} hg => ?_,
    fun {g sym'} hg => ?_⟩
  · rcases List.mem_append.1 hg with hg | hg
    · exact hext.isSome_func? (h.ids_known g hg)
    · rw [List.mem_singleton.1 hg, func?_define_self hf]
      rfl
  · rw [List.mem_append, List.mem_singleton]
    rcases func?_of_define hg with ⟨hne, hg⟩ | ⟨rfl, sym'', _, rfl⟩
    · rw [h.defined hg]
      exact ⟨.inl, fun hmem => hmem.resolve_right hne⟩
    · exact iff_of_true rfl (.inr rfl)
  · rcases func?_of_define hg with ⟨_, hg⟩ | ⟨rfl, sym'', _, rfl⟩
    · exact h.imported hg
    · exact iff_of_false nofun hnotImported

end Symbols

end MiniC
