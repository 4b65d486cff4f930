/-
  MiniC.Proofs.Grammar.Derivations

  **The words of an outline without faults can be derived.**

  Each phrase of an outline was read from words, and if nothing in it is
  broken or out of shape, the rule for the phrase gives those words from the
  words of its parts.  The proofs follow the outline.
-/
import MiniC.Proofs.Checking.Complaints
import MiniC.Proofs.Grammar.Phrases
import MiniC.Proofs.Reading.Words

namespace MiniC.Outline

open Computability
open Language (append_mem_mul)
open Grammar (derived rules mem_derived mem_sign mem_keyword mem_identifier
  nil_mem_optional mem_optional commaSeparated append_mem_kstar)
variable {r : Run}

/-! ## §1. Types and expressions -/

/-- A type is written as the grammar says. -/
theorem derived_ty (ty : Ty) : ty.words ∈ derived .type := by
  have hbase : ∀ {ks : List Kind},
      ks ∈ Grammar.keyword .kwInt + Grammar.keyword .kwFloat + Grammar.keyword .kwVoid →
      ks ∈ derived .type := by
    intro ks h
    have hparts := append_mem_mul h (Language.nil_mem_kstar (Grammar.sign .star))
    rw [List.append_nil] at hparts
    exact mem_derived (p := .type) hparts
  induction ty with
  | void => exact hbase (.inr rfl)
  | int => exact hbase (.inl (.inl rfl))
  | float => exact hbase (.inl (.inr rfl))
  | array base n ih => exact ih -- lengths are no words of a type
  | pointer base ih =>
    rw [Grammar.derived_eq_rules] at ih ⊢
    -- a star more at the end, where the rule repeats them
    have hrule : rules derived .type * Grammar.sign .star ≤ rules derived .type := by
      dsimp only [rules]
      rw [mul_assoc]
      gcongr
      exact kstar_mul_le_kstar
    exact hrule (append_mem_mul ih (mem_sign .star))

/-- A binary operator is written as the grammar says. -/
theorem derived_binary (op : BinaryOp) : [Kind.punct (binaryPunct op)] ∈ derived .binary := by
  refine mem_derived (p := .binary) ⟨binaryPunct op, ?_, rfl⟩
  cases op with
  | assign => decide
  | arith op => cases op <;> decide
  | compare op => cases op <;> decide
  | logical op => cases op <;> decide
  | bitwise op => cases op <;> decide

/-- An operator in front; a cast without a target has no words. -/
theorem derived_unary (op : UnaryOp) (target : Option Ty) (line : Nat) :
    words (Node.unary op target line).marks = [] ∨
      words (Node.unary op target line).marks ∈ derived .unary := by
  cases target with
  | none =>
    cases op with
    | cast => exact .inl rfl
    | negate => exact .inr (mem_derived (p := .unary) (.inl (.inl (.inl (.inl rfl)))))
    | deref => exact .inr (mem_derived (p := .unary) (.inl (.inl (.inl (.inr rfl)))))
    | addressOf => exact .inr (mem_derived (p := .unary) (.inl (.inl (.inr rfl))))
    | not => exact .inr (mem_derived (p := .unary) (.inl (.inr rfl)))
  | some ty =>
    have hwords : words (Node.unary op (some ty) line).marks =
        [Kind.punct .lparen] ++ ty.words ++ [Kind.punct .rparen] := by simp [Node.marks]
    rw [hwords]
    exact .inr (mem_derived (p := .unary) (.inr (append_mem_mul
      (append_mem_mul (mem_sign .lparen) (derived_ty ty)) (mem_sign .rparen))))

/-- The elements of an expression. -/
def Run.nodes : Run → List Node
  | .last n => [n]
  | .more n rest => n :: rest.nodes

/-- An expression in shape is derived from its operands. -/
theorem Run.Shaped.derived (hr : r.Shaped)
    (hn : ∀ n ∈ r.nodes, n.isOperand = true → words n.marks ∈ derived .operand) :
    words r.marks ∈ derived .expr := by
  induction hr with
  | last h => exact Grammar.expr_of_operand (hn _ (.head _) h)
  | @unary op target line r _ ih =>
    have hrest := ih fun n h => hn n (.tail _ h)
    rw [Run.marks, words_append]
    rcases derived_unary op target line with hnone | hsome
    · rw [hnone]
      exact hrest
    · exact Grammar.expr_of_unary hsome hrest
  | @binary n op line r h _ ih =>
    have hrest := ih fun n h => hn n (.tail _ (.tail _ h))
    rw [Run.marks, words_append, Run.marks, words_append]
    exact Grammar.expr_of_binary (hn _ (.head _) h) (derived_binary op) hrest

theorem Run.ShapeIn.shaped (h : r.ShapeIn ∅) : r.Shaped :=
  h.resolve_right fun hsub => hsub (a := ⟨.badExpression, 0⟩) (.inr rfl)

/-- Arguments, of which there may be none. -/
theorem derived_argList {args : Args}
    (h : args ≠ .none → words args.marks ∈ commaSeparated (derived .expr)) :
    words args.marks ∈ derived .args := by
  refine mem_derived (p := .args) ?_
  cases args with
  | none => exact nil_mem_optional _
  | arg e rest => exact mem_optional (h nofun)

mutual

/-- An operand without a fault is derived. -/
theorem derived_node : (n : Node) → n.FaultsIn ∅ → n.isOperand = true →
    words n.marks ∈ derived .operand
  | .int n line, _, _ => mem_derived (p := .operand) (.inl (.inl (.inl (.inl ⟨n, rfl⟩))))
  | .float x line, _, _ => mem_derived (p := .operand) (.inl (.inl (.inl (.inr ⟨x, rfl⟩))))
  | .name x line, _, _ => mem_derived (p := .operand) (.inl (.inl (.inr ⟨x, rfl⟩)))
  | .call f line args, h, _ => by
    have hwords : words (Node.call f line args).marks =
        [Kind.identifier f] ++ [Kind.punct .lparen] ++ words args.marks ++
          [Kind.punct .rparen] := by
      simp [Node.marks]
    rw [hwords]
    have hargs := derived_argList (derived_args args h)
    exact mem_derived (p := .operand) (.inl (.inr (append_mem_mul (append_mem_mul
      (append_mem_mul (mem_identifier f) (mem_sign .lparen)) hargs) (mem_sign .rparen))))
  | .group inner, h, _ => by
    have hinner := h.2.shaped.derived (derived_nodes inner h.1)
    have hwords : words (Node.group inner).marks =
        [Kind.punct .lparen] ++ words inner.marks ++ [Kind.punct .rparen] := by simp [Node.marks]
    rw [hwords]
    exact mem_derived (p := .operand) (.inr (append_mem_mul
      (append_mem_mul (mem_sign .lparen) hinner) (mem_sign .rparen)))
  | .unary .., _, hn | .binary .., _, hn => by cases hn
  | .broken f, h, _ => absurd h (Set.notMem_empty f)

theorem derived_nodes : (r : Run) → r.NodesIn ∅ → ∀ n ∈ r.nodes, n.isOperand = true →
    words n.marks ∈ derived .operand
  | .last n, h => List.forall_mem_singleton.2 (derived_node n h)
  | .more n rest, h =>
    List.forall_mem_cons.2 ⟨derived_node n h.1, derived_nodes rest h.2⟩

/-- Arguments without a fault are derived. -/
theorem derived_args : (args : Args) → args.FaultsIn ∅ → args ≠ .none →
    words args.marks ∈ commaSeparated (derived .expr)
  | .none, _, hne => absurd rfl hne
  | .arg e .none, h, _ => by
    have he := h.2.1.shaped.derived (derived_nodes e h.1)
    exact Grammar.commaSeparated_of_last he
  | .arg e (.arg e' rest), h, _ => by
    have he := h.2.1.shaped.derived (derived_nodes e h.1)
    rw [Args.marks, words_append, words_word]
    exact Grammar.commaSeparated_of_more he (derived_args (.arg e' rest) h.2.2 nofun)

end

theorem derived_run (h : r.FaultsIn ∅) : words r.marks ∈ derived .expr :=
  h.2.shaped.derived (derived_nodes r h.1)

/-! ## §2. Statements -/

/-- Lengths of arrays are derived. -/
theorem derived_lengths : (rs : List Run) → (∀ r ∈ rs, r.FaultsIn ∅) →
    words (lengthMarks rs) ∈ (Grammar.sign .lbracket * derived .expr * Grammar.sign .rbracket)∗
  | [], _ => Language.nil_mem_kstar _
  | r :: rs, h => by
    obtain ⟨hr, hrs⟩ := List.forall_mem_cons.1 h
    have hwords : words (lengthMarks (r :: rs)) =
        [Kind.punct .lbracket] ++ words r.marks ++ [Kind.punct .rbracket] ++
          words (lengthMarks rs) := by
      simp [lengthMarks]
    rw [hwords]
    exact append_mem_kstar (append_mem_mul (append_mem_mul (mem_sign .lbracket) (derived_run hr))
      (mem_sign .rbracket)) (derived_lengths rs hrs)

/-- An initial value and its semicolon are derived. -/
theorem derived_initial : (i : Initial) → i.FaultsIn ∅ →
    words i.marks ∈ Grammar.optional (Grammar.sign .eq * derived .expr) * Grammar.sign .semicolon
  | .none, _ => append_mem_mul (nil_mem_optional _) (mem_sign .semicolon)
  | .value e, h => by
    have hwords : words (Initial.value e).marks =
        [Kind.punct .eq] ++ words e.marks ++ [Kind.punct .semicolon] := by simp [Initial.marks]
    rw [hwords]
    exact append_mem_mul (mem_optional (append_mem_mul (mem_sign .eq) (derived_run h)))
      (mem_sign .semicolon)
  | .broken f, h => absurd h (Set.notMem_empty f)

/-- A declaration without a fault is derived. -/
theorem derived_declaration {d : Declaration} (h : d.FaultsIn ∅) :
    words d.marks ∈ derived .declaration := by
  have hwords : words d.marks = d.base.words ++ [Kind.identifier d.name] ++
      words (lengthMarks d.lengths) ++ words d.init.marks := by simp [Declaration.marks]
  rw [hwords]
  refine mem_derived (p := .declaration) ?_
  dsimp only [rules]
  -- the semicolon belongs to the initial value
  rw [mul_assoc _ (Grammar.optional _)]
  exact append_mem_mul (append_mem_mul (append_mem_mul (derived_ty d.base)
    (mem_identifier d.name)) (derived_lengths d.lengths h.1)) (derived_initial d.init h.2)

/-- The words of a block, whatever is declared in it from outside. -/
theorem derived_block {entry body : List Mark} (hentry : words entry = [])
    (h : words body ∈ (derived .stmt)∗) : words (block entry body) ∈ derived .block := by
  have hwords : words (block entry body) =
      [Kind.punct .lbrace] ++ words body ++ [Kind.punct .rbrace] := by simp [block, hentry]
  rw [hwords]
  exact mem_derived (p := .block) (append_mem_mul (append_mem_mul (mem_sign .lbrace) h)
    (mem_sign .rbrace))

/-- A jump and its semicolon. -/
theorem words_jump (k : Keyword) :
    words [keyword k, punct .semicolon] ∈ Grammar.keyword k * Grammar.sign .semicolon :=
  append_mem_mul (mem_keyword k) (mem_sign .semicolon)

/-- A test is derived from its parts. -/
theorem derived_test {cond : Run} {body : List Stmt} {otherwise : Else}
    (hcond : words cond.marks ∈ derived .expr)
    (hbody : words (Stmt.marksOf body) ∈ (derived .stmt)∗)
    (hotherwise : words otherwise.marks ∈
      Grammar.optional (Grammar.keyword .kwElse * (derived .test + derived .block))) :
    words (Stmt.branch cond body otherwise).marks ∈ derived .test := by
  have hwords : words (Stmt.branch cond body otherwise).marks =
      [Kind.keyword .kwIf] ++ [Kind.punct .lparen] ++ words cond.marks ++ [Kind.punct .rparen] ++
        words (block [] (Stmt.marksOf body)) ++ words otherwise.marks := by simp [Stmt.marks]
  rw [hwords]
  exact mem_derived (p := .test) (append_mem_mul (append_mem_mul (append_mem_mul (append_mem_mul
    (append_mem_mul (mem_keyword .kwIf) (mem_sign .lparen)) hcond) (mem_sign .rparen))
    (derived_block words_nil hbody)) hotherwise)

mutual

/-- A statement without a fault is derived. -/
theorem derived_stmt : (s : Stmt) → s.FaultsIn ∅ → words s.marks ∈ derived .stmt
  | .declare d, h =>
    mem_derived (p := .stmt) (.inl (.inl (.inl (.inl (.inl (.inl (derived_declaration h)))))))
  | .expr e, h => by
    rw [Stmt.marks, words_append]
    exact mem_derived (p := .stmt) (.inr (append_mem_mul (derived_run h) (mem_sign .semicolon)))
  | .ret line, _ => by
    have hret := append_mem_mul (append_mem_mul (mem_keyword .kwReturn)
      (nil_mem_optional (derived .expr))) (mem_sign .semicolon)
    exact mem_derived (p := .stmt) (.inl (.inl (.inl (.inl (.inl (.inr hret))))))
  | .retValue e, h => by
    have hwords : words (Stmt.retValue e).marks =
        [Kind.keyword .kwReturn] ++ words e.marks ++ [Kind.punct .semicolon] := by
      simp [Stmt.marks]
    rw [hwords]
    exact mem_derived (p := .stmt) (.inl (.inl (.inl (.inl (.inl (.inr (append_mem_mul
      (append_mem_mul (mem_keyword .kwReturn) (mem_optional (derived_run h)))
        (mem_sign .semicolon))))))))
  | .branch cond body otherwise, h => by
    have htest := derived_test (derived_run h.1) (derived_stmts body h.2.1)
      (derived_else otherwise h.2.2)
    exact mem_derived (p := .stmt) (.inl (.inl (.inl (.inl (.inr htest)))))
  | .loop cond body, h => by
    have hwords : words (Stmt.loop cond body).marks =
        [Kind.keyword .kwWhile] ++ [Kind.punct .lparen] ++ words cond.marks ++
          [Kind.punct .rparen] ++ words (block [] (Stmt.marksOf body)) := by
      simp [Stmt.marks]
    have hloop := append_mem_mul (append_mem_mul (append_mem_mul (append_mem_mul
      (mem_keyword .kwWhile) (mem_sign .lparen)) (derived_run h.1)) (mem_sign .rparen))
      (derived_block words_nil (derived_stmts body h.2))
    rw [hwords]
    exact mem_derived (p := .stmt) (.inl (.inl (.inl (.inr (mem_derived (p := .loop) hloop)))))
  | .leave line fault, _ => mem_derived (p := .stmt) (.inl (.inl (.inr (words_jump .kwBreak))))
  | .again line fault, _ => mem_derived (p := .stmt) (.inl (.inr (words_jump .kwContinue)))
  | .broken f, h => absurd h (Set.notMem_empty f)

/-- The other branch of a test is derived. -/
theorem derived_else : (o : Else) → o.FaultsIn ∅ →
    words o.marks ∈
      Grammar.optional (Grammar.keyword .kwElse * (derived .test + derived .block))
  | .nothing, _ => nil_mem_optional _
  | .branch cond body otherwise, h => by
    have htest := derived_test (derived_run h.1) (derived_stmts body h.2.1)
      (derived_else otherwise h.2.2)
    exact mem_optional (append_mem_mul (mem_keyword .kwElse) (.inl htest))
  | .block body, h => by
    have hblock := derived_block words_nil (derived_stmts body h)
    exact mem_optional (append_mem_mul (mem_keyword .kwElse) (.inr hblock))

/-- Statements without a fault are derived. -/
theorem derived_stmts : (ss : List Stmt) → Stmt.AllFaultsIn ∅ ss →
    words (Stmt.marksOf ss) ∈ (derived .stmt)∗
  | [], _ => Language.nil_mem_kstar _
  | s :: ss, h => by
    rw [Stmt.marksOf, words_append]
    exact append_mem_kstar (derived_stmt s h.1) (derived_stmts ss h.2)

end

/-! ## §3. Items -/

/-- Parameters are derived. -/
theorem derived_params : (ps : List Param) →
    words (paramMarks ps) ∈ Grammar.optional (commaSeparated (derived .param))
  | [] => nil_mem_optional _
  | p :: ps => mem_optional (more p ps)
where
  one (p : Param) : words p.marks ∈ derived .param := by
    rw [Param.marks, words_append, words_map_word]
    exact mem_derived (p := .param) (append_mem_mul (derived_ty p.ty) (mem_identifier p.name))
  more : (p : Param) → (ps : List Param) →
      words (paramMarks (p :: ps)) ∈ commaSeparated (derived .param)
    | p, [] => Grammar.commaSeparated_of_last (one p)
    | p, p' :: ps => by
      rw [paramMarks, words_append, words_word]
      exact Grammar.commaSeparated_of_more (one p) (more p' ps)

/-- The head of a function is derived. -/
theorem derived_signature (sig : Signature) : words sig.marks ∈ derived .head := by
  have hwords : words sig.marks =
      sig.ret.words ++ [Kind.identifier sig.name] ++ [Kind.punct .lparen] ++
        words (paramMarks sig.params) ++ [Kind.punct .rparen] := by
    simp [Signature.marks]
  rw [hwords]
  exact mem_derived (p := .head) (append_mem_mul (append_mem_mul (append_mem_mul (append_mem_mul
    (derived_ty sig.ret) (mem_identifier sig.name)) (mem_sign .lparen))
    (derived_params sig.params)) (mem_sign .rparen))

/-- **An item without a fault is derived by the grammar.**. -/
theorem derived_item {i : Item} (h : i.FaultsIn ∅) :
    words i.marks ∈ derived .imported + derived .function + derived .declaration := by
  cases i with
  | imported sig fault =>
    have hwords : words (Item.imported sig fault).marks =
        [Kind.keyword .kwExtern] ++ words sig.marks ++ [Kind.punct .semicolon] := by
      simp [Item.marks]
    rw [hwords]
    exact .inl (.inl (mem_derived (p := .imported) (append_mem_mul
      (append_mem_mul (mem_keyword .kwExtern) (derived_signature sig)) (mem_sign .semicolon))))
  | function sig body =>
    rw [Item.marks, words_append]
    refine .inl (.inr (mem_derived (p := .function) (append_mem_mul (derived_signature sig) ?_)))
    cases body with
    | none => exact .inl (mem_sign .semicolon)
    | block ss =>
      exact .inr (derived_block (words_paramDecls sig.params) (derived_stmts ss h.2))
    | broken f => exact absurd h.2 (Set.notMem_empty f)
  | global d => exact .inr (derived_declaration h)
  | broken f => exact absurd h (Set.notMem_empty f)

/-- **The words of items without faults are a program.** -/
theorem derived_items : (is : List Item) → (∀ i ∈ is, i.FaultsIn ∅) →
    words (marksOf is) ∈ derived .program
  | [], _ => mem_derived (p := .program) (Language.nil_mem_kstar _)
  | i :: is, h => by
    obtain ⟨hi, his⟩ := List.forall_mem_cons.1 h
    have hrest := derived_items is his
    have hwords : words (marksOf (i :: is)) = words i.marks ++ words (marksOf is) := by
      simp [marksOf]
    rw [hwords]
    rw [Grammar.derived_eq_rules] at hrest ⊢
    exact append_mem_kstar (derived_item hi) hrest

end MiniC.Outline
