/-
  MiniC.Proofs.Nesting.Modules

  **The text of a module can be read back.**

  What a module is written with has no parentheses in it: numbers are digits,
  and the names of functions are names of the source.  So all parentheses are
  those of the layout, and the text of a compiled program is laid out by its
  nesting and read back as the form of its module (`text_laidOut`).
-/
import MiniC.Proofs.Invariance.Names
import MiniC.Proofs.Nesting.Forms
import MiniC.Proofs.Reparsing.Words
import MiniC.Proofs.Validation.Modules

namespace MiniC

open Wasm (Inline)

/-! ## §1. Numbers and names -/

/-- The character is none that the layout is made of. -/
def isPlain (c : Char) : Bool := c ≠ '(' && c ≠ ')' && c ≠ '\n'

theorem Wasm.inline_of_isPlain {cs : List Char} (h : ∀ c ∈ cs, isPlain c = true) (n : Nat) :
    Inline n n cs := by
  simp only [isPlain, Bool.and_eq_true, decide_eq_true_eq] at h
  exact ⟨fun hmem => (h _ hmem).2 rfl, Wasm.opened_of_forall (fun c hc => (h c hc).1) n⟩

theorem Scan.isPlain_of_isNameChar {c : Char} (h : isNameChar c = true) : isPlain c = true := by
  simp only [isPlain, Bool.and_eq_true, decide_eq_true_eq]
  refine ⟨⟨?_, ?_⟩, ?_⟩ <;> rintro rfl <;> cases h

/-- Names hold no parenthesis. -/
theorem Scan.isPlain_of_isName {x : String} (h : isName x = true) :
    ∀ c ∈ x.toList, isPlain c = true := by
  unfold isName at h
  split at h
  · cases h
  · rename_i c cs hcs
    simp only [Bool.and_eq_true] at h
    obtain ⟨⟨hc, hall⟩, _⟩ := h
    rw [hcs]
    refine List.forall_mem_cons.2 ⟨isPlain_of_isNameChar (isNameChar_of_isNameStart hc), ?_⟩
    exact fun d hd => isPlain_of_isNameChar (List.all_eq_true.1 hall d hd)

namespace Text

theorem isPlain_digitsOf (n : Nat) : ∀ c ∈ digitsOf n, isPlain c = true := fun _ hc =>
  Scan.isPlain_of_isNameChar (Scan.isNameChar_of_isDigit (isDigit_of_mem_digitsOf hc))

theorem isPlain_unsigned (n : Nat) : ∀ c ∈ (unsigned n).toList, isPlain c = true := by
  rw [unsigned, String.toList_ofList]
  exact isPlain_digitsOf n

/-- Numbers hold no parenthesis. -/
theorem isPlain_signed (n : Int) : ∀ c ∈ (signed n).toList, isPlain c = true := by
  unfold signed
  split
  · rw [String.toList_append]
    exact List.forall_mem_append.2 ⟨List.all_eq_true.1 rfl, isPlain_unsigned _⟩
  · exact isPlain_unsigned _

end Text

namespace Binary32

/-- Decimals hold no parenthesis. -/
theorem isPlain_positional {ds : List Char} (h : ∀ c ∈ ds, isPlain c = true) (lead : Int) :
    ∀ c ∈ positional ds lead, isPlain c = true := by
  have hzeros (n : Nat) : ∀ c ∈ List.replicate n '0', isPlain c = true := fun c hc =>
    List.eq_of_mem_replicate hc ▸ rfl
  unfold positional
  split
  · exact List.forall_mem_append.2 ⟨List.forall_mem_append.2 ⟨List.all_eq_true.1 rfl, hzeros _⟩, h⟩
  · refine List.forall_mem_append.2 ⟨List.forall_mem_append.2 ⟨List.forall_mem_append.2
      ⟨fun c hc => h c (List.mem_of_mem_take hc), hzeros _⟩, List.all_eq_true.1 rfl⟩, ?_⟩
    split
    · exact List.all_eq_true.1 rfl
    · exact fun c hc => h c (List.mem_of_mem_drop hc)

/-- Powers of ten hold no parenthesis. -/
theorem isPlain_scientific {ds : List Char} (h : ∀ c ∈ ds, isPlain c = true) (lead : Int) :
    ∀ c ∈ scientific ds lead, isPlain c = true := by
  refine List.forall_mem_append.2 ⟨List.forall_mem_append.2 ⟨List.forall_mem_append.2
    ⟨fun c hc => h c (List.mem_of_mem_take hc), ?_⟩, List.all_eq_true.1 rfl⟩,
    Text.isPlain_signed lead⟩
  split
  · exact List.forall_mem_nil _
  · exact List.forall_mem_cons.2 ⟨rfl, fun c hc => h c (List.mem_of_mem_drop hc)⟩

/-- Magnitudes hold no parenthesis. -/
theorem isPlain_magnitudeText (x : Binary32) : ∀ c ∈ x.magnitudeText, isPlain c = true := by
  unfold magnitudeText layOut
  split
  · exact List.all_eq_true.1 rfl
  split
  · exact List.all_eq_true.1 rfl
  split
  · exact List.all_eq_true.1 rfl
  dsimp only
  split
  · exact isPlain_positional (Text.isPlain_digitsOf _) _
  · exact isPlain_scientific (Text.isPlain_digitsOf _) _

theorem isPlain_text (x : Binary32) : ∀ c ∈ x.text.toList, isPlain c = true := by
  rw [text, String.toList_ofList]
  split
  · exact List.forall_mem_cons.2 ⟨rfl, isPlain_magnitudeText x⟩
  · exact isPlain_magnitudeText x

end Binary32

namespace Wasm

variable {word : String}

/-! ## §2. Instructions -/

/-- The text begins a line of its own: it has plain characters only, and the
first is no space. -/
def beginsLine (cs : List Char) : Bool := cs.all isPlain && cs.head?.any (· ≠ ' ')

/-- A line that begins with a word and has no parentheses in the rest. -/
theorem wellFormed_append {rest : String} (h : beginsLine word.toList = true)
    (hrest : ∀ c ∈ rest.toList, isPlain c = true) : (Form.line (word ++ rest)).WellFormed := by
  rw [beginsLine, Bool.and_eq_true, List.all_eq_true] at h
  refine .line ?_ ?_
  · rw [String.toList_append]
    exact inline_of_isPlain (List.forall_mem_append.2 ⟨h.1, hrest⟩) 0
  · rw [String.toList_append]
    cases hword : word.toList with
    | nil =>
      rw [hword] at h
      cases h.2
    | cons c cs =>
      rw [hword] at h
      simpa using h.2

theorem wellFormed_word (h : beginsLine word.toList = true) : (Form.line word).WellFormed := by
  have happend : (Form.line (word ++ "")).WellFormed :=
    wellFormed_append h (List.forall_mem_nil _)
  rwa [String.append_empty] at happend

theorem isPlain_varText (v : VarId) : ∀ c ∈ (varText v).toList, isPlain c = true := by
  rw [varText, String.toList_append]
  exact List.forall_mem_append.2 ⟨List.all_eq_true.1 rfl, Text.isPlain_unsigned _⟩

theorem isPlain_label (l : Label) : ∀ c ∈ l.text.toList, isPlain c = true := by
  cases l with
  | exit depth | entry depth =>
    rw [Label.text, String.toList_append]
    exact List.forall_mem_append.2 ⟨List.all_eq_true.1 rfl, Text.isPlain_unsigned _⟩

/-- A constant is one line. -/
theorem wellFormed_const (c : Const) : (Form.line c.text).WellFormed := by
  cases c with
  | int n => exact wellFormed_append rfl (Text.isPlain_signed _)
  | word n => exact wellFormed_append rfl (Text.isPlain_unsigned _)
  | float x => exact wellFormed_append rfl x.isPlain_text
  | zero t => cases t <;> exact wellFormed_word rfl

theorem wellFormed_intOp (op : IntOp) : (Form.line op.text).WellFormed := by
  cases op with
  | lt signed | gt signed | le signed | ge signed => cases signed <;> exact wellFormed_word rfl
  | _ => exact wellFormed_word rfl

theorem wellFormed_floatOp (op : FloatOp) : (Form.line op.text).WellFormed := by
  cases op <;> exact wellFormed_word rfl

/-- A group whose head is a word and a label. -/
theorem wellFormed_labelled (h : ∀ c ∈ word.toList, isPlain c = true) (l : Label)
    {body : List Form} (hbody : ∀ f ∈ body, f.WellFormed) :
    (Form.group (word ++ l.text) body).WellFormed := by
  refine .group ?_ hbody
  rw [String.toList_append]
  exact inline_of_isPlain (List.forall_mem_append.2 ⟨h, isPlain_label l⟩) 0

/-- Every function that can be called has a name of the source. -/
def Context.Named (C : Context) : Prop := ∀ f ty, C.funcTy f = some ty → Scan.isName f = true

mutual

/-- The form of an instruction that calls only functions with a name. -/
theorem InstrTyped.wellFormed_form {C : Context} {i : Instr} {ts us : List ValType}
    (h : InstrTyped C i ts us) (hC : C.Named) : i.form.WellFormed := by
  cases h with
  | const c => exact wellFormed_const c
  | @localGet _ v _ h => exact wellFormed_append rfl (isPlain_varText v)
  | @localSet _ v _ h => exact wellFormed_append rfl (isPlain_varText v)
  | @globalGet _ v _ _ h => exact wellFormed_append rfl (isPlain_varText v)
  | @globalSet _ v _ h => exact wellFormed_append rfl (isPlain_varText v)
  | @call _ f ty h => exact wellFormed_append rfl (Scan.isPlain_of_isName (hC f ty h))
  | load t h => cases t <;> exact wellFormed_word rfl
  | int op => exact wellFormed_intOp op
  | float op => exact wellFormed_floatOp op
  | eqz | floatNeg | convert | truncate | drop _ | ret _ _ | unreachable _ _ =>
    exact wellFormed_word rfl
  | @br _ l h _ _ => exact wellFormed_append rfl (isPlain_label l)
  | @brIf _ l h => exact wellFormed_append rfl (isPlain_label l)
  | @block _ l _ h => exact wellFormed_labelled (List.all_eq_true.1 rfl) l (h.wellFormed_forms hC)
  | @loop _ l _ h => exact wellFormed_labelled (List.all_eq_true.1 rfl) l (h.wellFormed_forms hC)
  | ifThen h =>
    exact .group ⟨by decide, rfl⟩
      (List.forall_mem_singleton.2 (.group ⟨by decide, rfl⟩ (h.wellFormed_forms hC)))
  | ifElse h h' | ifValue h h' =>
    exact .group ⟨by decide, rfl⟩ (List.forall_mem_cons.2
      ⟨.group ⟨by decide, rfl⟩ (h.wellFormed_forms hC),
        List.forall_mem_singleton.2 (.group ⟨by decide, rfl⟩ (h'.wellFormed_forms hC))⟩)

/-- Valid code is written as well-formed forms. -/
theorem CodeTyped.wellFormed_forms {C : Context} {code : List Instr} {ts us : List ValType}
    (h : CodeTyped C code ts us) (hC : C.Named) : ∀ f ∈ codeForms code, f.WellFormed := by
  cases h with
  | nil => exact List.forall_mem_nil _
  | cons hi his =>
    exact List.forall_mem_cons.2 ⟨hi.wellFormed_form hC, his.wellFormed_forms hC⟩

end

/-! ## §3. Fields -/

theorem inline_valType (t : ValType) (n : Nat) : Inline n n t.text.toList :=
  inline_of_isPlain (by cases t <;> exact List.all_eq_true.1 rfl) n

theorem inline_paramText (t : ValType) (n : Nat) : Inline n n (paramText t).toList := by
  cases t <;> exact Inline.anywhere ⟨by decide, rfl⟩ n

/-- The types of parameters stand on one line. -/
theorem inline_params (ts : List ValType) (n : Nat) :
    Inline n n (String.join (ts.map paramText)).toList := by
  rw [String.toList_join]
  induction ts with
  | nil => exact ⟨List.not_mem_nil, rfl⟩
  | cons t ts ih => exact (inline_paramText t n).append ih

theorem inline_resultText (t : Option ValType) (n : Nat) :
    Inline n n (resultText t).toList := by
  rcases t with _ | _ | _ <;> exact Inline.anywhere ⟨by decide, rfl⟩ n

/-- An import is well formed. -/
theorem wellFormed_import {i : Import} (h : Scan.isName i.name = true) : i.form.WellFormed := by
  have hname := inline_of_isPlain (Scan.isPlain_of_isName h)
  have hlead : Inline 0 1 "(import \"env\" \"".toList := ⟨by decide, rfl⟩
  have hfunc : Inline 1 2 "\" (func $".toList := ⟨by decide, rfl⟩
  have hclose : Inline 2 0 "))".toList := ⟨by decide, rfl⟩
  refine .line ?_ ?_
  · simp only [String.toList_append]
    exact (((((hlead.append (hname 1)).append hfunc).append (hname 2)).append
      (inline_params i.params 2)).append (inline_resultText i.result 2)).append hclose
  · simp

/-- A global is well formed. -/
theorem wellFormed_global (g : Global) : g.form.WellFormed := by
  have hlead : Inline 0 1 "(global ".toList := ⟨by decide, rfl⟩
  have hspace : Inline 1 1 " ".toList := ⟨by decide, rfl⟩
  have hopen : Inline 1 2 " (".toList := ⟨by decide, rfl⟩
  have hclose : Inline 2 0 "))".toList := ⟨by decide, rfl⟩
  have hty : Inline 1 1 (if g.mutable then "(mut " ++ g.init.ty.text ++ ")"
      else g.init.ty.text).toList := by
    split
    · cases g.init.ty <;> exact ⟨by decide, rfl⟩
    · exact inline_valType _ 1
  have hinit : Inline 2 2 g.init.text.toList := by
    cases wellFormed_const g.init with
    | line h _ => exact h.anywhere 2
  refine .line ?_ ?_
  · simp only [String.toList_append]
    exact (((((hlead.append (inline_of_isPlain (isPlain_varText g.var) 1)).append hspace).append
      hty).append hopen).append hinit).append hclose
  · simp

/-- A parameter or local is well formed. -/
theorem wellFormed_slot {role : String} (h : ∀ c ∈ role.toList, isPlain c = true) (s : Slot) :
    (s.form role).WellFormed := by
  have hlead : Inline 0 1 "(".toList := ⟨by decide, rfl⟩
  have hspace : Inline 1 1 " ".toList := ⟨by decide, rfl⟩
  have hclose : Inline 1 0 ")".toList := ⟨by decide, rfl⟩
  refine .line ?_ ?_
  · simp only [String.toList_append]
    exact (((((hlead.append (inline_of_isPlain h 1)).append hspace).append
      (inline_of_isPlain (isPlain_varText s.var) 1)).append hspace).append
      (inline_valType s.ty 1)).append hclose
  · simp

/-- A result is well formed. -/
theorem wellFormed_resultForms (t : Option ValType) : ∀ f ∈ resultForms t, f.WellFormed := by
  cases t with
  | none => exact List.forall_mem_nil _
  | some t =>
    refine List.forall_mem_singleton.2 ?_
    cases t <;> exact .line ⟨by decide, rfl⟩ (by decide)

/-- The memory is well formed. -/
theorem wellFormed_memoryForms (pages : Option Nat) :
    ∀ f ∈ memoryForms pages, f.WellFormed := by
  cases pages with
  | none => exact List.forall_mem_nil _
  | some pages =>
    have hlead : Inline 0 1 "(memory ".toList := ⟨by decide, rfl⟩
    have hclose : Inline 1 0 ")".toList := ⟨by decide, rfl⟩
    refine List.forall_mem_singleton.2 (.line ?_ ?_)
    · simp only [String.toList_append]
      exact (hlead.append (inline_of_isPlain (Text.isPlain_unsigned pages) 1)).append hclose
    · simp

/-! ## §4. Modules -/

/-- Every function of the module has a name of the source. -/
def Module.Named (m : Module) : Prop :=
  (∀ i ∈ m.imports, Scan.isName i.name = true) ∧ ∀ f ∈ m.funcs, Scan.isName f.name = true

/-- In a named module, each function sees names only. -/
theorem Module.Named.context {m : Module} (h : m.Named) (f : Func) : (m.context f).Named := by
  intro name ty hty
  dsimp only [Module.context] at hty
  split at hty
  · rename_i i hi
    have hname : i.name = name := by simpa using List.find?_some hi
    exact hname ▸ h.1 i (List.mem_of_find?_eq_some hi)
  · obtain ⟨g, hg, _⟩ := Option.map_eq_some_iff.1 hty
    have hname : g.name = name := by simpa using List.find?_some hg
    exact hname ▸ h.2 g (List.mem_of_find?_eq_some hg)

/-- A valid function of it is well formed. -/
theorem wellFormed_func {m : Module} (h : m.Named) {f : Func} (hf : f ∈ m.funcs)
    (hvalid : f.Valid m) : f.form.WellFormed := by
  have hname := inline_of_isPlain (Scan.isPlain_of_isName (h.2 f hf))
  have hlead : Inline 0 0 "func $".toList := ⟨by decide, rfl⟩
  have hexport : Inline 0 1 " (export \"".toList := ⟨by decide, rfl⟩
  have hclose : Inline 1 0 "\")".toList := ⟨by decide, rfl⟩
  refine .group ?_ ?_
  · simp only [String.toList_append]
    exact (((hlead.append (hname 0)).append hexport).append (hname 1)).append hclose
  · have hslots {role : String} (hrole : ∀ c ∈ role.toList, isPlain c = true) (ss : List Slot) :
        ∀ g ∈ ss.map (Slot.form role), g.WellFormed :=
      List.forall_mem_map.2 fun s _ => wellFormed_slot hrole s
    refine List.forall_mem_append.2 ⟨List.forall_mem_append.2 ⟨List.forall_mem_append.2
      ⟨hslots (List.all_eq_true.1 rfl) _, wellFormed_resultForms _⟩,
      hslots (List.all_eq_true.1 rfl) _⟩, hvalid.body.wellFormed_forms (h.context f)⟩

/-- **The form of a valid module** whose functions have names of the source. -/
theorem wellFormed_module {m : Module} (h : m.Named) (hvalid : m.Valid) : m.form.WellFormed := by
  refine .group ⟨by decide, rfl⟩ ?_
  exact List.forall_mem_append.2 ⟨List.forall_mem_append.2 ⟨List.forall_mem_append.2
    ⟨List.forall_mem_map.2 fun i hi => wellFormed_import (h.1 i hi), wellFormed_memoryForms _⟩,
    List.forall_mem_map.2 fun g _ => wellFormed_global g⟩,
    List.forall_mem_map.2 fun f hf => wellFormed_func h hf (hvalid.funcs f hf)⟩

end Wasm

/-! ## §5. Programs -/

/-- The names of a text are names. -/
theorem Scan.isName_of_mem_identifiers {text x : String}
    (h : x ∈ identifiers (Scan.tokens text).list) : Scan.isName x = true := by
  obtain ⟨t, ht, hkind⟩ := List.mem_map.1 (mem_identifiers.1 h)
  obtain ⟨word, hword⟩ := writable_of_mem ht (by rw [hkind]; rfl)
  rw [hkind] at hword
  cases hword with
  | identifier hx => exact hx

namespace Lower

/-- The functions of a compiled program have names of its text. -/
theorem named_program {text : String} {p : Program} (h : parse text = .ok p) :
    (program p).Named := by
  have hclosed := Program.closed_of_parse h
  have htable {f : FuncId} {sym : FuncSymbol} (hf : p.symbols.func? f = some sym) :
      Scan.isName sym.name = true := by
    obtain ⟨head, hhead, hname⟩ := hclosed.mem_heads hf
    rw [← hname]
    exact Scan.isName_of_mem_identifiers (mem_identifiers_of_heads hhead)
  refine ⟨fun i hi => ?_, fun g hg => ?_⟩
  · obtain ⟨f, _, hf⟩ := List.mem_filterMap.1 hi
    obtain ⟨sym, hsym, rfl⟩ := Option.map_eq_some_iff.1 hf
    exact htable hsym
  · rw [program_funcs] at hg
    obtain ⟨f, hf, rfl⟩ := List.mem_map.1 hg
    obtain ⟨sym, hsym, hname, _⟩ := hclosed.agrees f hf
    show Scan.isName f.name = true
    rw [hname]
    exact htable hsym

/-- **The text of a compiled program is laid out by its nesting**, and the form
of its module is read back from it line by line. -/
theorem text_laidOut {text : String} {p : Program} (h : parse text = .ok p) :
    compile text = .ok (program p).text ∧ Wasm.LaidOut (program p).text ∧
      Wasm.Form.ofText? (program p).text = some (program p).form := by
  have hform := Wasm.wellFormed_module (named_program h) (valid_program (wellFormed_of_parse h))
  exact ⟨compile_of_parse_ok h, Wasm.laidOut_text hform, Wasm.Form.ofText?_text hform⟩

/-- The form of the module of the sample program. -/
def sampleForm : Wasm.Form :=
  .group "module" [
    .line "(memory 1)",
    .line "(global $V0 i32 (i32.const 16))",
    .group "func $f (export \"f\")" [
      .line "(param $V1 i32)",
      .line "(result i32)",
      .group "block $WO1" [
        .group "loop $WI1" [
          .line "local.get $V1", .line "i32.load", .line "i32.eqz", .line "br_if $WO1",
          .line "local.get $V1", .line "global.get $V0", .line "call $f", .line "i32.const 4",
          .line "i32.mul", .line "i32.add", .line "local.set $V1", .line "br $WI1"]],
      .line "i32.const 1", .line "local.get $V1", .line "i32.load", .line "i32.div_s",
      .line "return"]]

/-- A loop inside a block inside a function, and fields on one line. -/
theorem text_laidOut_loop :
    compile sampleText = .ok sampleForm.text ∧ Wasm.LaidOut sampleForm.text ∧
      Wasm.Form.ofText? sampleForm.text = some sampleForm := by
  have hform : (program sampleProgram).form = sampleForm := by cbv
  have h := text_laidOut parse_sampleText
  rwa [Wasm.Module.text, hform] at h

end Lower

end MiniC
