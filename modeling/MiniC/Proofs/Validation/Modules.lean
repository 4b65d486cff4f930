/-
  MiniC.Proofs.Validation.Modules

  **Every module that is compiled is valid.**

  The names of functions are those of the table, where no two are the same;
  variables have the names of their places.  Arrays lie below the largest
  word, which bounds the pages of memory (`finish_place_le`).  There is memory
  whenever code reads it, so that what was shown for code in a module with
  memory holds in the module itself (`CodeTyped.withMemory`).
-/
import MiniC.Proofs.Typing.Items
import MiniC.Proofs.Validation.Stmts

namespace MiniC

open Wasm

/-! ## §1. Memory -/

/-- Arrays end below the largest word. -/
theorem StaticLayout.finish_place_le {offset : Nat} (h : offset ≤ Memory.maxWord) (tys : List Ty) :
    (place offset tys).finish ≤ Memory.maxWord := by
  induction tys generalizing offset with
  | nil => exact h
  | cons ty tys ih =>
    rw [place]
    split
    · exact ih (Nat.min_le_right _ _)
    · exact ih h

/-- All arrays fit in memory. -/
theorem StaticLayout.pages_ofTypes_le (tys : List Ty) : (ofTypes tys).pages ≤ maxPages := by
  have hfinish : (ofTypes tys).finish ≤ 0xFFFFFFFF := finish_place_le (by decide) tys
  -- the largest word is one byte short of the last page
  have hceil : Memory.divCeil (ofTypes tys).finish Memory.pageSize ≤ 65536 := by
    unfold Memory.divCeil Memory.pageSize
    split <;> omega
  exact Nat.max_le.2 ⟨hceil, by decide⟩

namespace Lower

variable {p : Program}
variable {f : Function}

theorem memory_le {pages : Nat} (h : pages ∈ (program p).memory) : pages ≤ maxPages := by
  obtain ⟨_, h⟩ := Option.ite_none_right_eq_some.1 h
  cases h
  exact StaticLayout.pages_ofTypes_le _

/-- There is memory if a function reads it. -/
theorem isSome_memory {f : Func} (hf : f ∈ (program p).funcs)
    (hreads : codeReadsMemory f.body = true) : (program p).memory.isSome = true := by
  have hany : (program p).funcs.any (codeReadsMemory ·.body) = true :=
    List.any_eq_true.2 ⟨f, hf, hreads⟩
  have hsome : (program p).memory = some (Env.ofSymbols p.symbols).layout.pages :=
    if_pos (by rw [Bool.or_eq_true]; exact .inl hany)
  rw [hsome]
  rfl

/-! ## §2. Names -/

/-- The imports are named as the table says... -/
theorem map_name_imports (hp : p.WellFormed) :
    (program p).imports.map (·.name) = p.imports.map (Eval.nameOf p.symbols) := by
  show (p.imports.filterMap (hostFunction _)).map (·.name) = _
  rw [List.map_filterMap, ← List.filterMap_eq_map]
  refine List.filterMap_congr fun f hf => ?_
  obtain ⟨sym, hsym⟩ := Option.isSome_iff_exists.1 (hp.imports_known f hf)
  have hsym' : (Env.ofSymbols p.symbols).symbols.func? f = some sym := hsym
  rw [hostFunction, hsym', Function.comp_apply, Eval.nameOf_eq hsym]
  rfl

/-- ... and so are the functions. -/
theorem map_name_funcs (hp : p.WellFormed) :
    (program p).funcs.map (·.name) =
      (p.functions.map (·.id)).map (Eval.nameOf p.symbols) := by
  rw [program_funcs, List.map_map, List.map_map]
  refine List.map_congr_left fun f hf => ?_
  obtain ⟨sym, hsym, hname, _⟩ := (hp.functions f hf).symbol
  rw [Function.comp_apply, Function.comp_apply, Eval.nameOf_eq hsym, hname]
  rfl

/-- No two functions of the module share a name. -/
theorem names_nodup (hp : p.WellFormed) :
    ((program p).imports.map (·.name) ++ (program p).funcs.map (·.name)).Nodup := by
  rw [map_name_imports hp, map_name_funcs hp, ← List.map_append]
  have hids : (p.imports ++ p.functions.map (·.id)).Nodup := by
    refine List.nodup_append.2 ⟨hp.imports_nodup, hp.ids_nodup, fun f hf g hg heq => ?_⟩
    exact hp.apart f hf (heq ▸ hg)
  have hknown : ∀ f ∈ p.imports ++ p.functions.map (·.id), ∃ sym, p.symbols.func? f = some sym := by
    intro f hf
    rcases List.mem_append.1 hf with himp | hid
    · exact Option.isSome_iff_exists.1 (hp.imports_known f himp)
    · obtain ⟨g, hg, rfl⟩ := List.mem_map.1 hid
      obtain ⟨sym, hsym, _⟩ := (hp.functions g hg).symbol
      exact ⟨sym, hsym⟩
  -- functions that are known are told apart by their names
  refine List.Nodup.map_on (fun f hf g hg heq => ?_) hids
  obtain ⟨sym, hsym⟩ := hknown f hf
  obtain ⟨sym', hsym'⟩ := hknown g hg
  rw [Eval.nameOf_eq hsym, Eval.nameOf_eq hsym'] at heq
  exact hp.names hsym hsym' heq

/-- The globals of the module are those of the program. -/
theorem map_var_globals (p : Program) : (program p).globals.map (·.var) = p.globals := by
  show (globals _ p.items).map (·.var) = _
  rw [globals, List.map_filterMap]
  refine List.filterMap_congr fun i _ => ?_
  cases i with
  | function f => rfl
  | global v init => exact congrArg some (global_var _ v init)

theorem map_var_slots {G : List VarId} {Γ : Symbols} (hf : f.WellFormed Γ G) (env : Env) :
    ((function env f).params ++ (function env f).locals).map (·.var) = f.locals := by
  rw [slots_function hf, List.map_map]
  exact List.map_id f.locals

/-! ## §3. Modules -/

/-- The context of the code inside loops. -/
def inLoops (C : Context) (depth : Nat) : Context := { C with labels := loopLabels depth }

/-- The context of a function, with memory. -/
theorem covers (hp : p.WellFormed) (hf : f ∈ p.functions) (depth : Nat) :
    Covers p.symbols (fun v => v ∈ p.globals ∨ v ∈ f.locals) f.ret depth
      { inLoops ((program p).context (function (.ofSymbols p.symbols) f)) depth with
        memory := true } where
  agrees :=
    have h := agrees hp hf
    ⟨h.globalTy, h.localTy, h.funcTy⟩
  memory := rfl
  result := rfl
  labels := rfl

theorem mem_funcs (hf : f ∈ p.functions) :
    function (.ofSymbols p.symbols) f ∈ (program p).funcs := by
  rw [program_funcs]
  exact List.mem_map_of_mem hf

/-- **Every function of the module is valid.** -/
theorem valid_function (hp : p.WellFormed) (hf : f ∈ p.functions) :
    (function (.ofSymbols p.symbols) f).Valid (program p) where
  vars_nodup := by
    rw [map_var_slots (hp.functions f hf)]
    exact (hp.functions f hf).locals_nodup
  body := (codeTyped_body (covers hp hf 0) (hp.functions f hf).body).withMemory
    (isSome_memory (mem_funcs hf))

/-- **The module of a well-formed program is valid.** -/
theorem valid_program (hp : p.WellFormed) : (program p).Valid where
  funcs := by
    intro g hg
    rw [program_funcs] at hg
    obtain ⟨f, hf, rfl⟩ := List.mem_map.1 hg
    exact valid_function hp hf
  names_nodup := names_nodup hp
  exports_nodup := (names_nodup hp).of_append_right
  globals_nodup := by
    rw [map_var_globals]
    exact hp.globals_nodup
  memory := fun _ h => memory_le h

/-- Every statement of a function leaves the stack as it was. -/
theorem codeTyped_nested (hp : p.WellFormed) (hf : f ∈ p.functions) {x : Nat × Stmt}
    (hx : x ∈ Stmt.nested 0 f.body) (ts : List ValType) :
    CodeTyped (inLoops ((program p).context (function (.ofSymbols p.symbols) f)) x.1)
      (stmt (.ofSymbols p.symbols) x.1 x.2) ts ts := by
  -- in a module with memory first; there is some if the statement reads it
  have hcode := codeTyped_stmt (covers hp hf x.1) ((hp.functions f hf).body.nested x hx) ts
  refine hcode.withMemory fun hreads => isSome_memory (mem_funcs hf) ?_
  show codeReadsMemory (stmts _ 0 f.body ++ _) = true
  rw [codeReadsMemory_append, reads_of_nested hreads 0 f.body hx]
  rfl

/-- **What is compiled is valid**: the text is that of a valid module, in which
every statement of the source leaves the stack as it was. -/
theorem valid_of_compile {text out : String} (h : compile text = .ok out) :
    ∃ p, parse text = .ok p ∧ out = (program p).text ∧ (program p).Valid ∧
      ∀ f ∈ p.functions, ∀ x ∈ Stmt.nested 0 f.body, ∀ ts,
        CodeTyped (inLoops ((program p).context (function (.ofSymbols p.symbols) f)) x.1)
          (stmt (.ofSymbols p.symbols) x.1 x.2) ts ts := by
  obtain ⟨m, hm, hout⟩ := bind_eq_ok.1 h
  obtain ⟨p, hparse, hp⟩ := bind_eq_ok.1 hm
  cases hp
  cases hout
  have hwf := wellFormed_of_parse hparse
  exact ⟨p, hparse, rfl, valid_program hwf, fun f hf x hx => codeTyped_nested hwf hf hx⟩

/-- A module with a global array, memory, a loop and a call of the function
itself; the assignment in the loop is below a float. -/
theorem valid_of_compile_loop :
    compile sampleText = .ok (program sampleProgram).text ∧ (program sampleProgram).Valid ∧
      CodeTyped (inLoops ((program sampleProgram).context
          (function (.ofSymbols sampleProgram.symbols) sampleFunction)) 1)
        (stmt (.ofSymbols sampleProgram.symbols) 1 sampleAssignment) [.f32] [.f32] := by
  have hcompile : compile sampleText = .ok (program sampleProgram).text := by
    rw [compile, compileModule, parse_sampleText]
    rfl
  obtain ⟨p, hparse, _, hvalid, hstmts⟩ := valid_of_compile hcompile
  rw [parse_sampleText] at hparse
  cases hparse
  have hf : sampleFunction ∈ sampleProgram.functions := List.mem_singleton.2 rfl
  have hx : (1, sampleAssignment) ∈ Stmt.nested 0 sampleFunction.body := .tail _ (.head _)
  exact ⟨hcompile, hvalid, hstmts sampleFunction hf _ hx [.f32]⟩

end Lower

end MiniC
