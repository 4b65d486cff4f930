/-
  MiniC.Proofs.Lowering.Branches

  **Branches go to the innermost loop.**

  In the text of a module a branch names the block or loop that it goes to, and
  of several groups around it with that name the innermost one is meant
  (`Branch.resolve`).  The names count the loops around, so the names of a loop
  in a loop differ from those of the outer one, while loops side by side share
  theirs.

    • `Jump` is what a branch is there for: a statement leaves a loop or repeats
      it, a condition is tested, or the end of a body is reached,
    • `mirrors_stmts`: the branches in the code of statements are those of the
      jumps in the source, in the same order, with the same loops around them,
    • `resolve_jumpBranch`: the name of each is that of the innermost loop.
-/
import MiniC.Proofs.Lowering.Names
import MiniC.Proofs.Lowering.Operators
import MiniC.Proofs.Scanning.Printing
import MiniC.Proofs.Typing.Items

namespace MiniC

/-! ## §1. Names in text -/

namespace Wasm

variable {c : Char} {code : List Instr}

/-- The name that follows a keyword.  Names start with a dollar sign. -/
def nameAfter? (keyword text : String) : Option (List Char) :=
  if (keyword.toList ++ [' ', '$']).isPrefixOf text.toList then
    some (text.toList.drop (keyword.toList.length + 1))
  else none

/-- The name that a line branches to. -/
def target? (line : String) : Option (List Char) :=
  (nameAfter? "br" line).or (nameAfter? "br_if" line)

/-- The name of a group: blocks, loops and tests may have one. -/
def Form.label? : Form → Option (List Char)
  | .line _ => none
  | .group head _ =>
    ((nameAfter? "block" head).or (nameAfter? "loop" head)).or (nameAfter? "if" head)

/-- A line that branches, with the named groups around it, the innermost
first. -/
structure Branch where
  line : String
  around : List Form

/-- The group that a line branches to. -/
def Branch.resolve (b : Branch) : Option Form :=
  b.around.find? fun g => g.label? = target? b.line

namespace Form

/-- The named groups around what is inside of a group. -/
def enter (around : List Form) (g : Form) : List Form :=
  if g.label?.isSome then g :: around else around

mutual

/-- The branches in a form, in the order of the text. -/
def branches (around : List Form) : Form → List Branch
  | .line text => if (target? text).isSome then [⟨text, around⟩] else []
  | .group head body => branchesAll (enter around (.group head body)) body

/-- The branches in forms, in the order of the text. -/
def branchesAll (around : List Form) : List Form → List Branch
  | [] => []
  | f :: fs => branches around f ++ branchesAll around fs

end

mutual

/-- No group has a name that one around it has. -/
def Unshadowed (around : List Form) : Form → Prop
  | .line _ => True
  | .group head body =>
    (∀ g ∈ around, (group head body).label?.isSome → g.label? ≠ (group head body).label?) ∧
      AllUnshadowed (enter around (.group head body)) body

/-- No group among forms has a name that one around it has. -/
def AllUnshadowed (around : List Form) : List Form → Prop
  | [] => True
  | f :: fs => Unshadowed around f ∧ AllUnshadowed around fs

end

variable (around : List Form)

theorem branchesAll_eq_flatMap (fs : List Form) :
    branchesAll around fs = fs.flatMap (branches around) := by
  induction fs with
  | nil => rw [branchesAll, List.flatMap_nil]
  | cons f fs ih => rw [branchesAll, ih, List.flatMap_cons]

theorem allUnshadowed_iff (fs : List Form) :
    AllUnshadowed around fs ↔ ∀ f ∈ fs, Unshadowed around f := by
  induction fs with
  | nil => simp [AllUnshadowed]
  | cons f fs ih => simp [AllUnshadowed, ih]

theorem branchesAll_append (fs gs : List Form) :
    branchesAll around (fs ++ gs) = branchesAll around fs ++ branchesAll around gs := by
  simp only [branchesAll_eq_flatMap, List.flatMap_append]

theorem branchesAll_singleton (f : Form) : branchesAll around [f] = branches around f := by
  rw [branchesAll_eq_flatMap, List.flatMap_singleton]

theorem allUnshadowed_append (fs gs : List Form) :
    AllUnshadowed around (fs ++ gs) ↔ AllUnshadowed around fs ∧ AllUnshadowed around gs := by
  simp only [allUnshadowed_iff, List.forall_mem_append]

theorem allUnshadowed_singleton (f : Form) : AllUnshadowed around [f] ↔ Unshadowed around f := by
  rw [allUnshadowed_iff, List.forall_mem_singleton]

variable {head : String} {body : List Form}

/-- A group without a name makes no difference to what is inside. -/
theorem unnamed (h : (group head body).label? = none) :
    branches around (group head body) = branchesAll around body ∧
      (Unshadowed around (group head body) ↔ AllUnshadowed around body) := by
  have henter : enter around (group head body) = around := by
    unfold enter
    rw [h]
    rfl
  rw [branches, Unshadowed, henter, h]
  simp

/-- A group with a name is the innermost one around what is inside. -/
theorem named {f : Form} (hf : f = group head body) {l : List Char} (h : f.label? = some l) :
    branches around f = branchesAll (f :: around) body ∧
      (Unshadowed around f ↔
        (∀ g ∈ around, g.label? ≠ some l) ∧ AllUnshadowed (f :: around) body) := by
  have henter : enter around f = f :: around := by
    unfold enter
    rw [h]
    rfl
  subst hf
  rw [branches, Unshadowed, henter, h]
  simp

end Form

/-! ## §2. Labels -/

/-- Another first letter is another word. -/
theorem nameAfter?_eq_none {keyword text : String} (hkey : keyword.toList.head? = some c)
    (h : text.toList.head? ≠ some c) : nameAfter? keyword text = none := by
  unfold nameAfter?
  rw [if_neg]
  intro hpre
  obtain ⟨rest, hrest⟩ := List.isPrefixOf_iff_prefix.1 hpre
  refine h ?_
  rw [← hrest]
  cases hlist : keyword.toList with
  | nil =>
    rw [hlist] at hkey
    cases hkey
  | cons d ds =>
    rw [hlist] at hkey
    exact hkey

/-- What does not start with the letter of branches is none. -/
theorem target?_eq_none {line : String} (h : line.toList.head? ≠ some 'b') :
    target? line = none := by
  unfold target?
  rw [nameAfter?_eq_none rfl h, nameAfter?_eq_none rfl h]
  rfl

/-- A label is two letters and its depth. -/
theorem Label.toList_text (l : Label) : l.text.toList =
    match l with
    | .exit depth => ['$', 'W', 'O'] ++ Text.digitsOf depth
    | .entry depth => ['$', 'W', 'I'] ++ Text.digitsOf depth := by
  cases l with
  | exit depth =>
    rw [Label.text, String.toList_append]
    exact congrArg (['$', 'W', 'O'] ++ ·) String.toList_ofList
  | entry depth =>
    rw [Label.text, String.toList_append]
    exact congrArg (['$', 'W', 'I'] ++ ·) String.toList_ofList

/-- A label after a keyword and a blank. -/
theorem nameAfter?_label {keyword lead : String} (hlead : lead.toList = keyword.toList ++ [' '])
    (l : Label) : nameAfter? keyword (lead ++ l.text) = some l.text.toList := by
  have hlabel : ∃ rest, l.text.toList = '$' :: rest := by
    rw [l.toList_text]
    cases l with
    | exit depth | entry depth => exact ⟨_, rfl⟩
  obtain ⟨rest, hrest⟩ := hlabel
  have htext : (lead ++ l.text).toList = keyword.toList ++ [' ', '$'] ++ rest := by
    rw [String.toList_append, hlead, hrest]
    simp
  have hlength : keyword.toList.length + 1 = lead.toList.length := by
    rw [hlead, List.length_append, List.length_singleton]
  unfold nameAfter?
  rw [if_pos]
  · rw [String.toList_append, hlength, List.drop_left]
  · rw [htext]
    exact List.isPrefixOf_iff_prefix.2 (List.prefix_append _ _)

theorem target?_br (l : Label) : target? ("br " ++ l.text) = some l.text.toList := by
  unfold target?
  rw [nameAfter?_label rfl]
  rfl

/-- A conditional branch goes to its label. -/
theorem target?_brIf (l : Label) : target? ("br_if " ++ l.text) = some l.text.toList := by
  have hbr : nameAfter? "br" ("br_if " ++ l.text) = none := by
    unfold nameAfter?
    rw [String.toList_append]
    rfl
  unfold target?
  rw [hbr, nameAfter?_label rfl]
  rfl

theorem label?_block (l : Label) (body : List Form) :
    (Form.group ("block " ++ l.text) body).label? = some l.text.toList := by
  rw [Form.label?, nameAfter?_label rfl]
  rfl

/-- A loop has its label. -/
theorem label?_loop (l : Label) (body : List Form) :
    (Form.group ("loop " ++ l.text) body).label? = some l.text.toList := by
  have hblock : nameAfter? "block" ("loop " ++ l.text) = none := by
    unfold nameAfter?
    rw [String.toList_append]
    rfl
  rw [Form.label?, hblock, nameAfter?_label rfl]
  rfl

/-- Labels differ in the letter or in the number. -/
theorem Label.eq_of_text {l l' : Label} (h : l.text.toList = l'.text.toList) : l = l' := by
  rw [toList_text, toList_text] at h
  have hdigits {m n : Nat} (h : Text.digitsOf m = Text.digitsOf n) : m = n := by
    rw [← Text.digitsValue_digitsOf m, h, Text.digitsValue_digitsOf]
  cases l with
  | exit m =>
    cases l' with
    | exit n => rw [hdigits (List.append_cancel_left h)]
    | entry n => simp at h
  | entry m =>
    cases l' with
    | exit n => simp at h
    | entry n => rw [hdigits (List.append_cancel_left h)]

/-! ## §3. Code without branches -/

/-- A form without branches and names, whatever is around it. -/
def Form.Plain (f : Form) : Prop := ∀ around, f.branches around = [] ∧ f.Unshadowed around

/-- A line that starts otherwise is no branch. -/
theorem Form.plain_line {text : String} (h : text.toList.head? = some c) (hc : c ≠ 'b') :
    (Form.line text).Plain := by
  intro around
  have hline : text.toList.head? ≠ some 'b' := by
    rw [h]
    exact fun heq => hc (Option.some.inj heq)
  rw [Form.branches, Form.Unshadowed, target?_eq_none hline]
  exact ⟨rfl, trivial⟩

/-- A line that starts with another word. -/
theorem Form.plain_lead {lead : String} (h : lead.toList.head? = some c) (hc : c ≠ 'b')
    (rest : String) : (Form.line (lead ++ rest)).Plain := by
  refine Form.plain_line ?_ hc
  rw [String.toList_append, List.head?_append, h]
  rfl

theorem Form.plain_forms {fs : List Form} (h : ∀ f ∈ fs, f.Plain) (around : List Form) :
    branchesAll around fs = [] ∧ AllUnshadowed around fs := by
  rw [branchesAll_eq_flatMap, List.flatMap_eq_nil_iff, allUnshadowed_iff]
  exact ⟨fun f hf => (h f hf around).1, fun f hf => (h f hf around).2⟩

/-- A group without a name, of plain forms. -/
theorem Form.plain_group {head : String} {body : List Form}
    (hlabel : (Form.group head body).label? = none) (h : ∀ f ∈ body, f.Plain) :
    (Form.group head body).Plain := by
  intro around
  rw [(unnamed around hlabel).1, (unnamed around hlabel).2]
  exact plain_forms h around

/-- The instruction is a single line and no branch. -/
def Instr.isStep : Instr → Bool
  | .br _ | .brIf _ | .block .. | .loop .. | .ifThen _ | .ifElse .. | .ifValue .. => false
  | _ => true

/-- A constant is no branch. -/
theorem plain_form_const (c : Const) : (Form.line c.text).Plain := by
  cases c with
  | int n => exact Form.plain_lead rfl (by decide) _
  | word n => exact Form.plain_lead rfl (by decide) _
  | float x => exact Form.plain_lead rfl (by decide) _
  | zero t => cases t <;> exact Form.plain_lead rfl (by decide) _

theorem plain_form_intOp (op : IntOp) : (Form.line op.text).Plain := by
  cases op with
  | lt signed | gt signed | le signed | ge signed => exact Form.plain_lead rfl (by decide) _
  | _ => exact Form.plain_line rfl (by decide)

theorem plain_form_floatOp (op : FloatOp) : (Form.line op.text).Plain := by
  cases op <;> exact Form.plain_line rfl (by decide)

/-- No simple step is one. -/
theorem plain_form {i : Instr} (h : i.isStep = true) : i.form.Plain := by
  cases i with
  | const c => exact plain_form_const c
  | int op => exact plain_form_intOp op
  | float op => exact plain_form_floatOp op
  | localGet v | localSet v | globalGet v | globalSet v | call f =>
    exact Form.plain_lead rfl (by decide) _
  | load t => cases t <;> exact Form.plain_lead rfl (by decide) _
  | eqz | floatNeg | convert | truncate | drop | ret | unreachable =>
    exact Form.plain_line rfl (by decide)
  | br l | brIf l | block l body | loop l body | ifThen body | ifElse body other
  | ifValue body other => cases h

theorem mem_codeForms {f : Form} : f ∈ codeForms code ↔ ∃ i ∈ code, i.form = f := by
  induction code with
  | nil => simp [codeForms]
  | cons i code ih => simp [codeForms, ih, eq_comm]

/-- Code is written in order. -/
theorem codeForms_append (code code' : List Instr) :
    codeForms (code ++ code') = codeForms code ++ codeForms code' := by
  induction code with
  | nil =>
    rw [codeForms]
    rfl
  | cons i code ih => rw [List.cons_append, codeForms, codeForms, ih, List.cons_append]

theorem codeForms_singleton (i : Instr) : codeForms [i] = [i.form] := by
  rw [codeForms, codeForms]

/-- Code without branches and names. -/
def Plain (code : List Instr) : Prop := ∀ i ∈ code, i.form.Plain

theorem Plain.append {code' : List Instr} (h : Plain code) (h' : Plain code') :
    Plain (code ++ code') := by
  intro i hi
  exact (List.mem_append.1 hi).elim (h i) (h' i)

theorem Plain.step {i : Instr} (h : i.isStep = true) : Plain [i] :=
  List.forall_mem_singleton.2 (plain_form h)

/-- Operators are plain code. -/
theorem Plain.operators (h : ∀ i ∈ code, i.isOperator = true) : Plain code := by
  intro i hi
  have hop := h i hi
  refine plain_form ?_
  cases i <;> first | rfl | cases hop

theorem Plain.forms (h : Plain code) : ∀ f ∈ codeForms code, f.Plain := by
  intro f hf
  obtain ⟨i, hi, rfl⟩ := mem_codeForms.1 hf
  exact h i hi

/-- A choice of plain code is plain. -/
theorem Plain.ifValue {body other : List Instr} (hbody : Plain body) (hother : Plain other) :
    Plain [.ifValue body other] := by
  intro i hi
  rw [List.mem_singleton.1 hi, Instr.form]
  refine Form.plain_group rfl ?_
  rw [List.forall_mem_cons, List.forall_mem_singleton]
  exact ⟨Form.plain_group rfl hbody.forms, Form.plain_group rfl hother.forms⟩

/-! ## §4. The text of a module -/

/-- A clause on a line of its own. -/
theorem plain_clause {text : String} (h : text.toList.head? = some '(') : (Form.line text).Plain :=
  Form.plain_line h (by decide)

theorem plain_slot (role : String) (s : Slot) : (s.form role).Plain :=
  plain_clause (by simp only [String.toList_append]; rfl)

theorem plain_import (i : Import) : i.form.Plain :=
  plain_clause (by simp only [String.toList_append]; rfl)

theorem plain_global (g : Global) : g.form.Plain :=
  plain_clause (by simp only [String.toList_append]; rfl)

theorem plain_resultForms (t : Option ValType) : ∀ f ∈ resultForms t, f.Plain := by
  cases t with
  | none => exact List.forall_mem_nil _
  | some t =>
    exact List.forall_mem_singleton.2 (plain_clause (by simp only [String.toList_append]; rfl))

theorem plain_memoryForms (pages : Option Nat) : ∀ f ∈ memoryForms pages, f.Plain := by
  cases pages with
  | none => exact List.forall_mem_nil _
  | some pages =>
    exact List.forall_mem_singleton.2 (plain_clause (by simp only [String.toList_append]; rfl))

/-- Plain forms before others make no difference. -/
theorem plain_before {fs : List Form} (h : ∀ f ∈ fs, f.Plain) (around gs : List Form) :
    Form.branchesAll around (fs ++ gs) = Form.branchesAll around gs ∧
      (Form.AllUnshadowed around (fs ++ gs) ↔ Form.AllUnshadowed around gs) := by
  obtain ⟨hbranches, hunshadowed⟩ := Form.plain_forms h around
  rw [Form.branchesAll_append, hbranches, Form.allUnshadowed_append]
  exact ⟨rfl, and_iff_right hunshadowed⟩

/-- The branches in a function are those of its body. -/
theorem Func.branches_form (f : Func) (around : List Form) :
    f.form.branches around = Form.branchesAll around (codeForms f.body) ∧
      (f.form.Unshadowed around ↔ Form.AllUnshadowed around (codeForms f.body)) := by
  have hlabel (body : List Form) :
      (Form.group ("func $" ++ f.name ++ " (export \"" ++ f.name ++ "\")") body).label? = none := by
    have hhead : ("func $" ++ f.name ++ " (export \"" ++ f.name ++ "\")").toList.head? =
        some 'f' := by
      simp only [String.toList_append]
      rfl
    have hnone {keyword : String} {c : Char} (hkey : keyword.toList.head? = some c) (hc : 'f' ≠ c) :
        nameAfter? keyword ("func $" ++ f.name ++ " (export \"" ++ f.name ++ "\")") = none :=
      nameAfter?_eq_none hkey (by rw [hhead]; exact fun heq => hc (Option.some.inj heq))
    rw [Form.label?, hnone rfl (by decide), hnone rfl (by decide), hnone rfl (by decide)]
    rfl
  have hclauses : ∀ g ∈ f.params.map (Slot.form "param") ++ resultForms f.result ++
      f.locals.map (Slot.form "local"), g.Plain := by
    simp only [List.forall_mem_append, List.forall_mem_map]
    exact ⟨⟨fun s _ => plain_slot _ s, plain_resultForms _⟩, fun s _ => plain_slot _ s⟩
  unfold Func.form
  rw [(Form.unnamed _ (hlabel _)).1, (Form.unnamed _ (hlabel _)).2]
  exact plain_before hclauses around (codeForms f.body)

/-- The branches in a module are those of its functions. -/
theorem Module.branches_form (m : Module) (around : List Form) :
    m.form.branches around = m.funcs.flatMap (fun f => f.form.branches around) ∧
      (m.form.Unshadowed around ↔ ∀ f ∈ m.funcs, f.form.Unshadowed around) := by
  have hclauses : ∀ g ∈ m.imports.map Import.form ++ memoryForms m.memory ++
      m.globals.map Global.form, g.Plain := by
    simp only [List.forall_mem_append, List.forall_mem_map]
    exact ⟨⟨fun i _ => plain_import i, plain_memoryForms _⟩, fun g _ => plain_global g⟩
  obtain ⟨hbranches, hunshadowed⟩ := plain_before hclauses around (m.funcs.map Func.form)
  unfold Module.form
  rw [(Form.unnamed _ rfl).1, (Form.unnamed _ rfl).2, hbranches, hunshadowed,
    Form.branchesAll_eq_flatMap, Form.allUnshadowed_iff, List.flatMap_map, List.forall_mem_map]
  exact ⟨rfl, Iff.rfl⟩

end Wasm

/-! ## §5. Jumps of the source -/

/-- A loop of the source. -/
structure While where
  cond : Expr
  body : List Stmt

/-- Why control leaves the order of the source. -/
inductive Jump.Kind where
  /-- A statement leaves the loop. -/
  | leave
  /-- A statement tests the condition again. -/
  | again
  /-- The condition does not hold. -/
  | test
  /-- The end of the body was reached. -/
  | back

/-- A jump, with the loops around it, the innermost first.  The loop whose
condition is tested or whose body ends is one of them. -/
structure Jump where
  kind : Jump.Kind
  around : List While

mutual

/-- The jumps in a statement, in source order. -/
def Stmt.jumps (around : List While) : Stmt → List Jump
  | .branch _ body otherwise => Stmt.jumpsIn around body ++ otherwise.jumps around
  | .loop cond body =>
    ⟨.test, ⟨cond, body⟩ :: around⟩ ::
      (Stmt.jumpsIn (⟨cond, body⟩ :: around) body ++ [⟨.back, ⟨cond, body⟩ :: around⟩])
  | .leave => [⟨.leave, around⟩]
  | .again => [⟨.again, around⟩]
  | .declare .. | .expr _ | .ret _ => []

/-- The jumps in what is done if a condition fails. -/
def Else.jumps (around : List While) : Else → List Jump
  | .nothing => []
  | .branch _ body otherwise => Stmt.jumpsIn around body ++ otherwise.jumps around
  | .block body => Stmt.jumpsIn around body

/-- The jumps in statements, in source order. -/
def Stmt.jumpsIn (around : List While) : List Stmt → List Jump
  | [] => []
  | s :: ss => s.jumps around ++ Stmt.jumpsIn around ss

end

/-- The jumps in the body of a function. -/
def Function.jumps (f : Function) : List Jump := Stmt.jumpsIn [] f.body

namespace Lower

open Wasm

/-! ## §6. Branches of the code -/

section

variable (env : Env)

/-- A turn of a loop with `depth` loops around it. -/
def turnCode (depth : Nat) (w : While) : List Instr :=
  condition env w.cond ++ [.eqz, .brIf (.exit (depth + 1))] ++ stmts env (depth + 1) w.body ++
    [.br (.entry (depth + 1))]

/-- The loop itself. -/
def loopInstr (depth : Nat) (w : While) : Instr :=
  .loop (.entry (depth + 1)) (turnCode env depth w)

/-- The block around it. -/
def blockInstr (depth : Nat) (w : While) : Instr :=
  .block (.exit (depth + 1)) [loopInstr env depth w]

theorem stmt_loop (depth : Nat) (w : While) :
    stmt env depth (.loop w.cond w.body) = [blockInstr env depth w] := by
  rw [stmt]
  rfl

/-- The groups in the text for loops around each other. -/
def frames : List While → List Form
  | [] => []
  | w :: outer =>
    (loopInstr env outer.length w).form :: (blockInstr env outer.length w).form :: frames outer

/-- The name that a jump goes to, with `depth` loops around it. -/
def jumpLabel (depth : Nat) : Jump.Kind → Label
  | .leave | .test => .exit depth
  | .again | .back => .entry depth

/-- The group that a jump goes to, from inside the loop `w` with `depth` loops
around it. -/
def jumpTarget (depth : Nat) (w : While) : Jump.Kind → Form
  | .leave | .test => (blockInstr env depth w).form
  | .again | .back => (loopInstr env depth w).form

/-- The line for a jump, with `depth` loops around it. -/
def jumpLine (depth : Nat) : Jump.Kind → String
  | .test => "br_if " ++ (jumpLabel depth .test).text
  | kind => "br " ++ (jumpLabel depth kind).text

/-- The branch for a jump. -/
def jumpBranch (j : Jump) : Branch := ⟨jumpLine j.around.length j.kind, frames env j.around⟩

end

/-- The line of a jump goes to its label. -/
theorem target?_jumpLine (depth : Nat) (kind : Jump.Kind) :
    target? (jumpLine depth kind) = some (jumpLabel depth kind).text.toList := by
  cases kind with
  | test => exact target?_brIf _
  | leave | again | back => exact target?_br _

section

variable (env : Env) (depth : Nat) (w : While)

theorem form_loopInstr : (loopInstr env depth w).form =
    .group ("loop " ++ (Label.entry (depth + 1)).text) (codeForms (turnCode env depth w)) := by
  rw [loopInstr, Instr.form]

theorem form_blockInstr : (blockInstr env depth w).form =
    .group ("block " ++ (Label.exit (depth + 1)).text) [(loopInstr env depth w).form] := by
  rw [blockInstr, Instr.form, codeForms_singleton]

theorem label?_loopInstr :
    (loopInstr env depth w).form.label? = some (Label.entry (depth + 1)).text.toList := by
  rw [form_loopInstr]
  exact label?_loop _ _

theorem label?_blockInstr :
    (blockInstr env depth w).form.label? = some (Label.exit (depth + 1)).text.toList := by
  rw [form_blockInstr]
  exact label?_block _ _

end

variable {env : Env}

/-- **The name of a jump is that of the innermost loop around it.** -/
theorem resolve_jumpBranch (kind : Jump.Kind) (w : While) (outer : List While) :
    (jumpBranch env ⟨kind, w :: outer⟩).resolve = some (jumpTarget env outer.length w kind) := by
  have hentry : (Label.entry (outer.length + 1)).text.toList ≠
      (Label.exit (outer.length + 1)).text.toList := fun h => by cases Label.eq_of_text h
  unfold Branch.resolve jumpBranch
  simp only [target?_jumpLine, frames, List.find?_cons, label?_loopInstr, label?_blockInstr,
    List.length_cons]
  cases kind with
  | leave | test => simp [jumpLabel, jumpTarget, hentry]
  | again | back => simp [jumpLabel, jumpTarget]

/-- The names of loops around each other count up to their number. -/
theorem label?_of_mem_frames {around : List While} {g : Form} (hg : g ∈ frames env around) :
    ∃ depth ≤ around.length, g.label? = some (Label.exit depth).text.toList ∨
      g.label? = some (Label.entry depth).text.toList := by
  induction around with
  | nil => cases hg
  | cons w outer ih =>
    rw [frames, List.mem_cons, List.mem_cons] at hg
    rcases hg with rfl | rfl | hg
    · exact ⟨_, Nat.le_refl _, .inr (label?_loopInstr _ _ _)⟩
    · exact ⟨_, Nat.le_refl _, .inl (label?_blockInstr _ _ _)⟩
    · obtain ⟨depth, hle, hlabel⟩ := ih hg
      exact ⟨depth, Nat.le_succ_of_le hle, hlabel⟩

/-- Code with loops around it branches as the jumps of the source do, and uses
no name of theirs. -/
structure Mirrors (env : Env) (around : List While) (code : List Instr) (jumps : List Jump) :
    Prop where
  branches : Form.branchesAll (frames env around) (codeForms code) = jumps.map (jumpBranch env)
  unshadowed : Form.AllUnshadowed (frames env around) (codeForms code)
  /-- No jump is outside of all loops. -/
  inside : ∀ j ∈ jumps, j.around ≠ []

namespace Mirrors

variable {around : List While} {code code' : List Instr} {jumps jumps' : List Jump}

theorem plain (h : Plain code) : Mirrors env around code [] := by
  obtain ⟨hbranches, hunshadowed⟩ := Form.plain_forms h.forms (frames env around)
  exact ⟨hbranches, hunshadowed, List.forall_mem_nil _⟩

/-- Code in order branches as statements in order do. -/
theorem append (h : Mirrors env around code jumps) (h' : Mirrors env around code' jumps') :
    Mirrors env around (code ++ code') (jumps ++ jumps') := by
  constructor
  · rw [codeForms_append, Form.branchesAll_append, h.branches, h'.branches, List.map_append]
  · rw [codeForms_append, Form.allUnshadowed_append]
    exact ⟨h.unshadowed, h'.unshadowed⟩
  · intro j hj
    exact (List.mem_append.1 hj).elim (h.inside j) (h'.inside j)

/-- The branch of a jump. -/
theorem jump {i : Instr} (kind : Jump.Kind) (hi : i.form = .line (jumpLine around.length kind))
    (hne : around ≠ []) : Mirrors env around [i] [⟨kind, around⟩] := by
  have hforms : codeForms [i] = [.line (jumpLine around.length kind)] := by
    rw [codeForms_singleton, hi]
  constructor
  · rw [hforms, Form.branchesAll_singleton, Form.branches, target?_jumpLine]
    rfl
  · rw [hforms]
    exact ⟨trivial, trivial⟩
  · exact List.forall_mem_singleton.2 hne

/-- A condition adds no branch. -/
theorem ifThen (h : Mirrors env around code jumps) : Mirrors env around [.ifThen code] jumps := by
  have hforms : codeForms [.ifThen code] = [.group "if" [.group "then" (codeForms code)]] := by
    rw [codeForms_singleton, Instr.form]
  constructor
  · rw [hforms, Form.branchesAll_singleton, (Form.unnamed _ rfl).1, Form.branchesAll_singleton,
      (Form.unnamed _ rfl).1, h.branches]
  · rw [hforms, Form.allUnshadowed_singleton, (Form.unnamed _ rfl).2,
      Form.allUnshadowed_singleton, (Form.unnamed _ rfl).2]
    exact h.unshadowed
  · exact h.inside

/-- A choice adds no branch. -/
theorem ifElse (h : Mirrors env around code jumps) (h' : Mirrors env around code' jumps') :
    Mirrors env around [.ifElse code code'] (jumps ++ jumps') := by
  have hforms : codeForms [.ifElse code code'] =
      [.group "if" ([.group "then" (codeForms code)] ++ [.group "else" (codeForms code')])] := by
    rw [codeForms_singleton, Instr.form]
    rfl
  constructor
  · rw [hforms, Form.branchesAll_singleton, (Form.unnamed _ rfl).1, Form.branchesAll_append,
      Form.branchesAll_singleton, Form.branchesAll_singleton, (Form.unnamed _ rfl).1,
      (Form.unnamed _ rfl).1, h.branches, h'.branches, List.map_append]
  · rw [hforms, Form.allUnshadowed_singleton, (Form.unnamed _ rfl).2, Form.allUnshadowed_append,
      Form.allUnshadowed_singleton, Form.allUnshadowed_singleton, (Form.unnamed _ rfl).2,
      (Form.unnamed _ rfl).2]
    exact ⟨h.unshadowed, h'.unshadowed⟩
  · intro j hj
    exact (List.mem_append.1 hj).elim (h.inside j) (h'.inside j)

/-- A turn of a loop, from its condition and its body. -/
theorem turn {w : While} (hcond : Plain (condition env w.cond))
    (hbody : Mirrors env (w :: around) (stmts env (around.length + 1) w.body) jumps) :
    Mirrors env (w :: around) (turnCode env around.length w)
      (⟨.test, w :: around⟩ :: (jumps ++ [⟨.back, w :: around⟩])) := by
  have hne : w :: around ≠ [] := List.cons_ne_nil _ _
  have hexit : Mirrors env (w :: around) [.eqz, .brIf (.exit (around.length + 1))]
      [⟨.test, w :: around⟩] := (plain (.step rfl)).append (jump .test rfl hne)
  have hback : Mirrors env (w :: around) [.br (.entry (around.length + 1))]
      [⟨.back, w :: around⟩] := jump .back rfl hne
  exact (((plain hcond).append hexit).append hbody).append hback

/-- A name that counts one more loop is new. -/
theorem label?_ne_of_mem_frames {g : Form} (hg : g ∈ frames env around) (kind : Jump.Kind) :
    g.label? ≠ some (jumpLabel (around.length + 1) kind).text.toList := by
  obtain ⟨depth, hle, hlabel | hlabel⟩ := label?_of_mem_frames hg
  all_goals
    rw [hlabel]
    intro heq
    have hlabels := Label.eq_of_text (Option.some.inj heq)
    cases kind <;> cases hlabels <;> omega

/-- A loop around code. -/
theorem loop {w : While} (h : Mirrors env (w :: around) (turnCode env around.length w) jumps) :
    Mirrors env around [blockInstr env around.length w] jumps := by
  have hblock := Form.named (frames env around) (form_blockInstr env around.length w)
    (label?_blockInstr env around.length w)
  have hloop := Form.named ((blockInstr env around.length w).form :: frames env around)
    (form_loopInstr env around.length w) (label?_loopInstr env around.length w)
  constructor
  · rw [codeForms_singleton, Form.branchesAll_singleton, hblock.1, Form.branchesAll_singleton,
      hloop.1]
    exact h.branches
  · rw [codeForms_singleton, Form.allUnshadowed_singleton, hblock.2,
      Form.allUnshadowed_singleton, hloop.2]
    refine ⟨fun g hg => label?_ne_of_mem_frames hg .leave, ?_, h.unshadowed⟩
    intro g hg
    rcases List.mem_cons.1 hg with rfl | hg
    · rw [label?_blockInstr]
      intro heq
      cases Label.eq_of_text (Option.some.inj heq)
    · exact label?_ne_of_mem_frames hg .again
  · exact h.inside

end Mirrors

section Exprs

variable {Γ : Symbols} {U : VarId → Prop}

theorem plain_get (env : Env) (v : VarId) : Plain [env.get v] := by
  unfold Env.get
  split <;> exact .step rfl

theorem plain_set (env : Env) (v : VarId) : Plain [env.set v] := by
  unfold Env.set
  split <;> exact .step rfl

/-- The code of expressions is plain. -/
theorem composed_plain : Composed Γ U env Plain where
  operators := .operators
  get _ _ := plain_get env _
  set _ _ _ := plain_set env _
  call _ := .step rfl
  append := .append
  choice := .ifValue

/-- The code of an expression does not branch. -/
theorem plain_expr {e : Expr} {t : Ty} (h : HasTy Γ U e t) : Plain (expr env e) :=
  composed_plain.expr h

theorem plain_condition {e : Expr} (h : Condition Γ U e) : Plain (condition env e) :=
  composed_plain.condition h.1

end Exprs

/-! ## §7. Statements -/

section Stmts

variable {Γ : Symbols} {U : VarId → Prop} {ret : Ty}

/-- The code of a declaration is plain. -/
theorem plain_declare {v : VarId} {init : Option Expr}
    (h : ∀ e ∈ init, ∃ t, HasTy Γ U e t) (depth : Nat) :
    Plain (stmt env depth (.declare v init)) := by
  unfold stmt
  split
  · exact (Plain.step rfl).append (plain_set env v)
  · split
    · rename_i e
      obtain ⟨t, ht⟩ := h e rfl
      exact (plain_expr ht).append (plain_set env v)
    · exact List.forall_mem_nil _

mutual

/-- **The branches of a statement's code are its jumps.** -/
theorem mirrors_stmt {depth : Nat} {s : Stmt} (h : StmtTyped Γ U ret depth s) :
    ∀ {around : List While}, around.length = depth →
      Mirrors env around (stmt env depth s) (s.jumps around) := by
  intro around hlen
  cases h with
  | declare hv hu hs hne hinit =>
    refine .plain (plain_declare (Γ := Γ) (U := U) (fun e he => ?_) depth)
    obtain ⟨_, t, ht, _⟩ := (hinit e he).2
    exact ⟨t, ht⟩
  | expr he =>
    refine .plain ((plain_expr he).append ?_)
    split
    · exact List.forall_mem_nil _
    · exact .step rfl
  | ret hr => exact .plain (.step rfl)
  | retValue hne he =>
    obtain ⟨_, t, ht, _⟩ := he
    exact .plain ((plain_expr ht).append (.step rfl))
  | branch hc hb ho =>
    exact (Mirrors.plain (plain_condition hc)).append
      (mirrors_branch ho hlen (mirrors_stmts hb hlen))
  | @loop _ cond body hc hb =>
    subst hlen
    rw [stmt_loop env around.length ⟨cond, body⟩]
    exact (Mirrors.turn (w := ⟨cond, body⟩) (plain_condition hc) (mirrors_stmts hb rfl)).loop
  | leave hpos => exact .jump .leave (hlen ▸ rfl) (List.length_pos_iff.1 (hlen ▸ hpos))
  | again hpos => exact .jump .again (hlen ▸ rfl) (List.length_pos_iff.1 (hlen ▸ hpos))

/-- After the test of a branch. -/
theorem mirrors_branch {depth : Nat} {o : Else} (h : ElseTyped Γ U ret depth o) :
    ∀ {around : List While}, around.length = depth → ∀ {code : List Instr} {jumps : List Jump},
      Mirrors env around code jumps →
        Mirrors env around (branch env depth code o) (jumps ++ o.jumps around) := by
  intro around hlen code jumps hcode
  cases h with
  | nothing =>
    rw [Else.jumps, List.append_nil]
    exact hcode.ifThen
  | branch hc hb ho =>
    exact hcode.ifElse ((Mirrors.plain (plain_condition hc)).append
      (mirrors_branch ho hlen (mirrors_stmts hb hlen)))
  | block hb => exact hcode.ifElse (mirrors_stmts hb hlen)

/-- **The code of statements branches as the statements jump.** -/
theorem mirrors_stmts {depth : Nat} {ss : List Stmt} (h : StmtsTyped Γ U ret depth ss) :
    ∀ {around : List While}, around.length = depth →
      Mirrors env around (stmts env depth ss) (Stmt.jumpsIn around ss) := by
  intro around hlen
  cases h with
  | nil => exact .plain (List.forall_mem_nil _)
  | cons h hs => exact (mirrors_stmt h hlen).append (mirrors_stmts hs hlen)

end

end Stmts

/-! ## §8. Programs -/

section Programs

variable {Γ : Symbols} {G : List VarId} {f : Function}

/-- The branches of a function's code are the jumps of its body. -/
theorem mirrors_body (hf : f.WellFormed Γ G) :
    Mirrors env [] (function env f).body f.jumps := by
  have hend : Mirrors env []
      (if f.ret ≠ .void ∧ !(f.body.getLast?.any Stmt.isReturn) then [.unreachable] else []) [] := by
    refine .plain ?_
    split
    · exact .step rfl
    · exact List.forall_mem_nil _
  have hbody : Mirrors env [] (stmts env 0 f.body) f.jumps := mirrors_stmts hf.body rfl
  rw [← List.append_nil f.jumps]
  exact hbody.append hend

end Programs

/-- **Branches go to the innermost loop.**  In the text of a module:

  • the lines that branch are those of the jumps in the source, function by
    function and in the same order; the number in the name is the number of
    loops around the jump, and the groups around the line are theirs,
  • every jump, and so every statement that leaves or repeats a loop, is inside
    a loop of its function, and its name is resolved to the block, respectively
    the loop, in the code of the innermost one,
  • no name is given to a group inside one that has it. -/
theorem branches_innermost {text : String} {p : Program} (h : parse text = .ok p) :
    (program p).form.branches [] =
        p.functions.flatMap (fun f => f.jumps.map (jumpBranch (.ofSymbols p.symbols))) ∧
      (∀ f ∈ p.functions, ∀ j ∈ f.jumps, ∃ w outer, j.around = w :: outer ∧
        stmt (.ofSymbols p.symbols) outer.length (.loop w.cond w.body) =
          [blockInstr (.ofSymbols p.symbols) outer.length w] ∧
        (jumpBranch (.ofSymbols p.symbols) j).resolve =
          some (jumpTarget (.ofSymbols p.symbols) outer.length w j.kind)) ∧
      (program p).form.Unshadowed [] := by
  have hp := wellFormed_of_parse h
  obtain ⟨hbranches, hunshadowed⟩ := (program p).branches_form []
  have hmirrors (f : Function) (hf : f ∈ p.functions) :
      Mirrors (.ofSymbols p.symbols) [] (function (.ofSymbols p.symbols) f).body f.jumps :=
    mirrors_body (hp.functions f hf)
  refine ⟨?_, ?_, ?_⟩
  · rw [hbranches, program_funcs, List.flatMap_map]
    refine List.flatMap_congr fun f hf => ?_
    rw [(Func.branches_form _ _).1]
    exact (hmirrors f hf).branches
  · intro f hf j hj
    obtain ⟨kind, around⟩ := j
    cases around with
    | nil => exact absurd rfl ((hmirrors f hf).inside _ hj)
    | cons w outer => exact ⟨w, outer, rfl, stmt_loop _ _ w, resolve_jumpBranch kind w outer⟩
  · rw [hunshadowed, program_funcs, List.forall_mem_map]
    intro f hf
    rw [(Func.branches_form _ _).2]
    exact (hmirrors f hf).unshadowed

/-- Two loops side by side in a third one. -/
def nestedText : String :=
  "int f(int n) { while (n) { while (n) { if (n) { break; } } while (n) { continue; } } return n; }"

def nestedFunction : Function where
  id := ⟨0⟩
  name := "f"
  ret := .int
  params := [⟨0⟩]
  locals := [⟨0⟩]
  body := [
    .loop (.var ⟨0⟩ .int 1) [
      .loop (.var ⟨0⟩ .int 1) [.branch (.var ⟨0⟩ .int 1) [.leave] .nothing],
      .loop (.var ⟨0⟩ .int 1) [.again]],
    .ret (some (.var ⟨0⟩ .int 1))]

def nestedProgram : Program where
  items := [.function nestedFunction]
  imports := []
  symbols :=
    { vars := ⟨#[⟨"n", .int, .localVar, 1⟩]⟩
      funcs := ⟨#[⟨"f", .int, [.int], .defined, 1⟩]⟩ }

set_option maxRecDepth 10000 in
theorem parse_nestedText : parse nestedText = .ok nestedProgram := by
  cbv

/-- The inner loops have the same names, and each jump finds its own. -/
theorem branches_innermost_nested :
    ((program nestedProgram).form.branches []).map (·.line) =
        ["br_if $WO1", "br_if $WO2", "br $WO2", "br $WI2", "br_if $WO2", "br $WI2", "br $WI2",
          "br $WI1"] ∧
      (program nestedProgram).form.Unshadowed [] := by
  obtain ⟨hbranches, _, hunshadowed⟩ := branches_innermost parse_nestedText
  refine ⟨?_, hunshadowed⟩
  rw [hbranches]
  rfl

end Lower

end MiniC
