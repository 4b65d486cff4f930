/-
  MiniC.Proofs.Lowering.Names

  What the names in a module stand for.

  A module that comes from a well-formed program declares every variable and
  function that its code can name, with the types that values of theirs have
  on the stack (`agrees`).  Names of functions are not repeated, so a function
  is found by its name: an import if the host provides it (`find?_import`),
  and otherwise the function that its item became (`find?_func`).

  An array has a place in memory, and nothing else has one.
-/
import Mathlib.Data.List.Nodup
import MiniC.Lower.Program
import MiniC.Proofs.Execution.Machine
import MiniC.Proofs.Execution.Tree
import MiniC.Proofs.Typing.Judgement

namespace MiniC

open Exec Wasm

/-! ## §1. Places of arrays -/

/-- Exactly the arrays have places. -/
theorem StaticLayout.isSome_address?_place (offset : Nat) (tys : List Ty) (i : Nat) :
    ((place offset tys).address? i).isSome = (tys[i]?).any Ty.isArray := by
  induction tys generalizing offset i with
  | nil => rfl
  | cons ty tys ih =>
    rw [place]
    cases i with
    | zero =>
      by_cases ha : ty.isArray = true
      · rw [if_pos ha]
        exact ha.symm
      · rw [if_neg ha]
        exact (Bool.not_eq_true _ ▸ ha : ty.isArray = false).symm
    | succ i =>
      split
      · exact ih _ i
      · exact ih _ i

theorem Symbols.getElem?_varTypes (Γ : Symbols) (v : VarId) :
    Γ.varTypes[v.index]? = (Γ.var? v).map (·.ty) := by
  simp [Symbols.varTypes, Symbols.var?, Table.get?]

namespace Lower

/-- Exactly the arrays have addresses. -/
theorem Env.isSome_address? (Γ : Symbols) (v : VarId) :
    ((Env.ofSymbols Γ).address? v).isSome = (Γ.var? v).any (·.ty.isArray) := by
  have h := StaticLayout.isSome_address?_place Memory.staticBase Γ.varTypes v.index
  rw [Γ.getElem?_varTypes v, Option.any_map] at h
  rw [Env.address?, Option.isSome_map]
  exact h

/-- The address of an array is its place. -/
theorem Env.address?_eq_place? (Γ : Symbols) (v : VarId) :
    ((Env.ofSymbols Γ).address? v).map UInt32.toBitVec = Eval.place? Γ v := by
  unfold Eval.place?
  rw [← Env.isSome_address?, Env.address?, Option.isSome_map, Option.map_map]
  cases h : (Env.ofSymbols Γ).layout.address? v.index with
  | none => rfl
  | some a =>
    have h : (StaticLayout.ofTypes Γ.varTypes).address? v.index = some a := h
    rw [h]
    rfl

/-! ## §2. Variables -/

/-- The names that the machine knows are those of the table, with the types
that values of theirs have on the stack.  No global array can be assigned to. -/
structure Agrees (Γ : Symbols) (U : VarId → Prop) (C : Context) : Prop where
  globalTy : ∀ {v : VarId} {sym : VarSymbol}, Γ.var? v = some sym → U v →
    sym.storage = .globalVar → C.globalTy v = some (sym.ty.valType, !sym.ty.isArray)
  localTy : ∀ {v : VarId} {sym : VarSymbol}, Γ.var? v = some sym → U v →
    sym.storage = .localVar → C.localTy v = some sym.ty.valType
  funcTy : ∀ {f : FuncId} {sym : FuncSymbol}, Γ.func? f = some sym →
    C.funcTy sym.name = some ⟨sym.params.map Ty.valType, sym.ret.result?⟩

/-- What is found is what `P` says, if something is there to be found. -/
theorem find?_eq_some_of {α : Type} {l : List α} {q : α → Bool} {P : α → Prop}
    (hex : ∃ a ∈ l, q a = true) (hall : ∀ a ∈ l, q a = true → P a) :
    ∃ a, l.find? q = some a ∧ P a := by
  obtain ⟨a, ha⟩ := Option.isSome_iff_exists.1 (List.find?_isSome.2 hex)
  exact ⟨a, ha, hall a (List.mem_of_find?_eq_some ha) (List.find?_some ha)⟩

section Variables

variable {Γ : Symbols} {v : VarId} {sym : VarSymbol}

theorem varTy_ofSymbols (hv : Γ.var? v = some sym) : (Env.ofSymbols Γ).varTy v = sym.ty := by
  have hv : (Env.ofSymbols Γ).symbols.var? v = some sym := hv
  rw [Env.varTy, hv]
  rfl

theorem isGlobal_of_globalVar (hv : Γ.var? v = some sym) (hs : sym.storage = .globalVar) :
    Eval.isGlobal Γ v = true := by
  simp [Eval.isGlobal, hv, hs]

theorem not_isGlobal_of_localVar (hv : Γ.var? v = some sym) (hs : sym.storage = .localVar) :
    ¬ Eval.isGlobal Γ v = true := by
  simp [Eval.isGlobal, hv, hs]

/-- The instructions for a variable are those of its storage. -/
theorem get_set_of_globalVar (hv : Γ.var? v = some sym) (hs : sym.storage = .globalVar) :
    (Env.ofSymbols Γ).get v = .globalGet v ∧ (Env.ofSymbols Γ).set v = .globalSet v :=
  ⟨if_pos (isGlobal_of_globalVar hv hs), if_pos (isGlobal_of_globalVar hv hs)⟩

theorem get_set_of_localVar (hv : Γ.var? v = some sym) (hs : sym.storage = .localVar) :
    (Env.ofSymbols Γ).get v = .localGet v ∧ (Env.ofSymbols Γ).set v = .localSet v :=
  ⟨if_neg (not_isGlobal_of_localVar hv hs), if_neg (not_isGlobal_of_localVar hv hs)⟩

/-- The variables of a function, the parameters among them. -/
theorem slots_function {G : List VarId} {f : Function} (hf : f.WellFormed Γ G) (env : Env) :
    (function env f).params ++ (function env f).locals = f.locals.map (slot env) := by
  obtain ⟨rest, hrest⟩ := hf.params_prefix
  show f.params.map (slot env) ++ (f.locals.drop f.params.length).map (slot env) = _
  rw [← hrest, List.drop_left, List.map_append]

/-- A local has its type in the code. -/
theorem context_localTy {G : List VarId} {f : Function} (hf : f.WellFormed Γ G)
    (hv : Γ.var? v = some sym) (hmem : v ∈ f.locals) (m : Module) :
    (m.context (function (.ofSymbols Γ) f)).localTy v = some sym.ty.valType := by
  obtain ⟨s, hs, hty⟩ : ∃ s, (f.locals.map (slot (.ofSymbols Γ))).find? (·.var = v) = some s ∧
      s.ty = sym.ty.valType := by
    refine find?_eq_some_of ⟨slot (.ofSymbols Γ) v, List.mem_map_of_mem hmem, by simp [slot]⟩ ?_
    intro s hs hsv
    obtain ⟨v', _, rfl⟩ := List.mem_map.1 hs
    have hv' : v' = v := of_decide_eq_true hsv
    rw [hv', slot, varTy_ofSymbols hv]
  show Option.map _ (List.find? _ _) = _
  rw [slots_function hf, hs, Option.map_some, hty]

/-- A global keeps its variable. -/
theorem global_var (env : Env) (v : VarId) (init : Option Literal) :
    (global env v init).var = v := by
  unfold global
  split
  · rfl
  · split <;> rfl

/-- A global is as its type says, and an array is never assigned to. -/
theorem global_type {init : Option Literal} (h : GlobalWellFormed Γ v init sym) :
    (global (.ofSymbols Γ) v init).init.ty = sym.ty.valType ∧
      (global (.ofSymbols Γ) v init).mutable = !sym.ty.isArray := by
  have harray := Env.isSome_address? Γ v
  rw [h.symbol, Option.any_some] at harray
  unfold global
  split
  · rename_i address haddr
    rw [haddr] at harray
    have harray : sym.ty.isArray = true := harray.symm
    rw [harray]
    cases hty : sym.ty with
    | array base n => exact ⟨rfl, rfl⟩
    | _ =>
      rw [hty] at harray
      cases harray
  · rename_i haddr
    rw [haddr] at harray
    have harray : sym.ty.isArray = false := harray.symm
    rw [harray]
    split
    · rename_i n
      have hne : sym.ty ≠ .float := fun hf => absurd ((h.constant (.int n) rfl).2.2 hf) nofun
      cases hty : sym.ty with
      | float => exact absurd hty hne
      | _ => exact ⟨rfl, rfl⟩
    · rename_i x
      have hf : sym.ty = .float := (h.constant (.float x) rfl).2.1 rfl
      rw [hf]
      exact ⟨rfl, rfl⟩
    · exact ⟨congrArg Ty.valType (varTy_ofSymbols h.symbol), rfl⟩

end Variables

section Programs

variable {p : Program}
variable {sym : FuncSymbol} {g : Function}

/-- Globals of the module are those of the program. -/
theorem mem_program_globals {g : Global} (h : g ∈ (program p).globals) :
    ∃ v init, .global v init ∈ p.items ∧ g = global (.ofSymbols p.symbols) v init := by
  obtain ⟨i, hi, heq⟩ := List.mem_filterMap.1 h
  cases i with
  | function f => cases heq
  | global v init =>
    cases heq
    exact ⟨v, init, hi, rfl⟩

/-- A global has its type in the code, an array unchangeable. -/
theorem context_globalTy (hp : p.WellFormed) {v : VarId} {sym : VarSymbol}
    (hv : p.symbols.var? v = some sym) (hmem : v ∈ p.globals) (f : Func) :
    ((program p).context f).globalTy v = some (sym.ty.valType, !sym.ty.isArray) := by
  obtain ⟨g, hg, hty, hmut⟩ : ∃ g, (program p).globals.find? (·.var = v) = some g ∧
      g.init.ty = sym.ty.valType ∧ g.mutable = !sym.ty.isArray := by
    refine find?_eq_some_of ?_ ?_
    · obtain ⟨i, hi, heq⟩ := List.mem_filterMap.1 hmem
      cases i with
      | function f => cases heq
      | global v' init =>
        cases heq
        refine ⟨global (.ofSymbols p.symbols) v init, ?_, by simp [global_var]⟩
        exact List.mem_filterMap.2 ⟨.global v init, hi, rfl⟩
    · intro g hg hgv
      obtain ⟨v', init, hi, rfl⟩ := mem_program_globals hg
      have hv' : v' = v := by simpa [global_var] using hgv
      subst hv'
      obtain ⟨sym', hwf⟩ := hp.globals v' init hi
      have hsym : sym' = sym := Option.some.inj (hwf.symbol.symm.trans hv)
      exact global_type (hsym ▸ hwf)
  show Option.map _ (List.find? _ _) = _
  rw [hg, Option.map_some, hty, hmut]

/-! ## §3. Functions -/

/-- The import that a function of the host becomes. -/
def importOf (sym : FuncSymbol) : Import :=
  ⟨sym.name, sym.params.map Ty.valType, sym.ret.result?⟩

theorem mem_program_imports {i : Import} (h : i ∈ (program p).imports) :
    ∃ f ∈ p.imports, ∃ sym, p.symbols.func? f = some sym ∧ i = importOf sym := by
  obtain ⟨f, hf, heq⟩ := List.mem_filterMap.1 h
  obtain ⟨sym, hsym, rfl⟩ := Option.map_eq_some_iff.1 heq
  exact ⟨f, hf, sym, hsym, rfl⟩

/-- A function of the host is found by its name. -/
theorem find?_import (hp : p.WellFormed) {f : FuncId} (hf : p.symbols.func? f = some sym)
    (hmem : f ∈ p.imports) :
    (program p).imports.find? (·.name = sym.name) = some (importOf sym) := by
  obtain ⟨i, hi, rfl⟩ : ∃ i, (program p).imports.find? (·.name = sym.name) = some i ∧
      i = importOf sym := by
    refine find?_eq_some_of ⟨importOf sym, ?_, by simp [importOf]⟩ ?_
    · refine List.mem_filterMap.2 ⟨f, hmem, ?_⟩
      have hf : (Env.ofSymbols p.symbols).symbols.func? f = some sym := hf
      rw [hostFunction, hf]
      rfl
    · intro i hi hname
      obtain ⟨f', _, sym', hf', rfl⟩ := mem_program_imports hi
      have hname : sym'.name = sym.name := of_decide_eq_true hname
      have heq := hp.names hf' hf hname
      rw [heq, hf] at hf'
      cases hf'
      rfl
  exact hi

/-- A function with a body is not found among the imports... -/
theorem find?_import_eq_none (hp : p.WellFormed) (hg : g ∈ p.functions) :
    (program p).imports.find? (·.name = g.name) = none := by
  rw [List.find?_eq_none]
  intro i hi hname
  obtain ⟨f', hf'mem, sym', hf', rfl⟩ := mem_program_imports hi
  obtain ⟨sym, hf, hsym, _⟩ := (hp.functions g hg).symbol
  have hname : sym'.name = sym.name := (of_decide_eq_true hname).trans hsym.symm
  have heq := hp.names hf' hf hname
  exact hp.apart f' hf'mem (heq ▸ List.mem_map_of_mem hg)

/-- The module has the functions of the program. -/
theorem program_funcs (p : Program) :
    (program p).funcs = p.functions.map (function (.ofSymbols p.symbols)) := by
  show functions _ p.items = _
  rw [functions, Program.functions, List.map_filterMap]
  congr 1
  funext i
  cases i <;> rfl

/-- ... but among the functions, by its name. -/
theorem find?_func (hp : p.WellFormed) (hg : g ∈ p.functions) :
    (program p).funcs.find? (·.name = g.name) = some (function (.ofSymbols p.symbols) g) := by
  rw [program_funcs]
  obtain ⟨h, hh, rfl⟩ : ∃ h, (p.functions.map (function (.ofSymbols p.symbols))).find?
      (·.name = g.name) = some h ∧ h = function (.ofSymbols p.symbols) g := by
    refine find?_eq_some_of ⟨_, List.mem_map_of_mem hg, by simp [function]⟩ ?_
    intro h hh hname
    obtain ⟨g', hg', rfl⟩ := List.mem_map.1 hh
    have hname : g'.name = g.name := of_decide_eq_true hname
    obtain ⟨sym, hsym, hn, _⟩ := (hp.functions g hg).symbol
    obtain ⟨sym', hsym', hn', _⟩ := (hp.functions g' hg').symbol
    have hid : g'.id = g.id := hp.names hsym' hsym (by rw [hn, hn', hname])
    rw [List.inj_on_of_nodup_map hp.ids_nodup hg' hg hid]
  exact hh

/-- A function has the type that the table gives it. -/
theorem type_function {G : List VarId} {Γ : Symbols} (hg : g.WellFormed Γ G)
    (hsym : Γ.func? g.id = some sym) :
    (function (.ofSymbols Γ) g).type = ⟨sym.params.map Ty.valType, sym.ret.result?⟩ := by
  obtain ⟨_, hret, hparams⟩ := hg.of_func? hsym
  -- a parameter is looked up in the table by its place, with a default for strangers
  have htys := congrArg (List.map fun ty? : Option Ty => (ty?.getD .int).valType) hparams
  rw [List.map_map, List.map_map] at htys
  show FuncType.mk ((g.params.map (slot _)).map (·.ty)) g.ret.result? = _
  rw [List.map_map, hret]
  exact congrArg (FuncType.mk · _) htys

/-- A function has its type in the code. -/
theorem context_funcTy (hp : p.WellFormed) {f : FuncId} (hf : p.symbols.func? f = some sym)
    (g : Func) :
    ((program p).context g).funcTy sym.name =
      some ⟨sym.params.map Ty.valType, sym.ret.result?⟩ := by
  unfold Module.context
  dsimp only
  rcases hp.covered hf with himp | hid
  · rw [find?_import hp hf himp]
    rfl
  · obtain ⟨g', hg', rfl⟩ := List.mem_map.1 hid
    rw [((hp.functions g' hg').of_func? hf).1, find?_import_eq_none hp hg', find?_func hp hg']
    exact congrArg some (type_function (hp.functions g' hg') hf)

/-- **The names of a module agree with the table of its program.** -/
theorem agrees (hp : p.WellFormed) {f : Function} (hf : f ∈ p.functions) :
    Agrees p.symbols (fun v => v ∈ p.globals ∨ v ∈ f.locals)
      ((program p).context (function (.ofSymbols p.symbols) f)) := by
  -- a variable is among the globals or among the locals, as its storage says
  refine ⟨fun hv hu hs => ?_, fun hv hu hs => ?_, fun hf' => context_funcTy hp hf' _⟩
  · rcases hu with hg | hl
    · exact context_globalTy hp hv hg _
    · obtain ⟨sym', hv', hs'⟩ := (hp.functions f hf).locals_local _ hl
      rw [hv] at hv'
      cases hv'
      rw [hs] at hs'
      cases hs'
  · rcases hu with hg | hl
    · obtain ⟨i, hi, heq⟩ := List.mem_filterMap.1 hg
      cases i with
      | function f => cases heq
      | global v' init =>
        cases heq
        obtain ⟨sym', hwf⟩ := hp.globals _ init hi
        have hsym := Option.some.inj (hwf.symbol.symm.trans hv)
        rw [← hsym, hwf.storage] at hs
        cases hs
    · exact context_localTy (hp.functions f hf) hv hl _

end Programs

end Lower

end MiniC
