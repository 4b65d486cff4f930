/-
  MiniC.Proofs.Reparsing.Reading

  **The words of an expression are read as they are meant.**

  The outline of an expression is what its words should be read as: one
  element for a constant, a name or a call, and groups around the operands of
  an operator (`Expr.outline`).  Parentheses leave nothing to be decided, so
  that whatever follows, as long as it ends an expression, the words are read
  as the outline, up to lines (`reads_words`).

  A type is not read back by following the reader: what is read is written
  with the same words, and a type that has a name is known by them.
-/
import MiniC.Proofs.Grammar.Reading
import MiniC.Proofs.Relabelling.Basic
import MiniC.Proofs.Reparsing.Words

namespace MiniC

open Outline
open Relabelling (lineless)

/-! ## §1. Outlines of expressions -/

/-- What the word for a constant should be read as. -/
def Literal.node : Literal → Node
  | .int n => .int n 0
  | .float x => .float x 0

/-- The type that an operator in front names; only a cast does. -/
def UnaryOp.named (op : UnaryOp) (ty : Ty) : Option Ty :=
  match op with
  | .cast => some ty
  | _ => none

mutual

/-- What the words of an expression should be read as, on no line. -/
def Expr.outline (Γ : Symbols) : Expr → Run
  | .literal value _ _ => .last value.node
  | .var v _ _ => .last (.name (Γ.varName v) 0)
  | .call f args _ _ => .last (.call (Γ.funcName f) 0 (Expr.outlines Γ args))
  | .unary op e ty _ => .more (.unary op (op.named ty) 0) (.last (.group (e.outline Γ)))
  | .binary op l r _ _ =>
    .more (.group (l.outline Γ)) (.more (.binary op 0) (.last (.group (r.outline Γ))))

/-- What the words of arguments should be read as. -/
def Expr.outlines (Γ : Symbols) : List Expr → Args
  | [] => .none
  | e :: es => .arg (e.outline Γ) (Expr.outlines Γ es)

end

/-! ## §2. Types -/

/-- A type is written with words of a type. -/
theorem Ty.words_mem_typeWords (ty : Ty) : ty.words ∈ typeWords := by
  induction ty with
  | int | float | void => exact ⟨_, 0, rfl, rfl⟩
  | pointer base ih =>
    obtain ⟨k, n, hk, hwords⟩ := ih
    refine ⟨k, n + 1, hk, ?_⟩
    rw [Ty.words, hwords, List.replicate_succ', List.cons_append]
  | array base n ih => exact ih

/-- The name of a basic type is not that of a pointer. -/
theorem Ty.words_pointer_ne (base : Ty) (w : Keyword) :
    (Ty.pointer base).words ≠ [Kind.keyword w] := by
  intro h
  have hlast := (List.append_eq_singleton_iff.1 h).elim (fun h => h.2) fun h => absurd h.2 nofun
  cases hlast

/-- **A type that has a name is known by it.** -/
theorem Ty.eq_of_words {ty ty' : Ty} (h : ty.isNamed = true) (h' : ty'.isNamed = true)
    (hwords : ty.words = ty'.words) : ty = ty' := by
  induction ty generalizing ty' with
  | int | float | void =>
    cases ty' with
    | array base n => cases h'
    | pointer base => exact absurd hwords.symm (Ty.words_pointer_ne base _)
    | _ => first | rfl | cases hwords
  | pointer base ih =>
    cases ty' with
    | array base n => cases h'
    | pointer base' =>
      rw [Ty.words, Ty.words] at hwords
      have hbase : base = base' := ih h h' (List.append_cancel_right hwords)
      rw [hbase]
    | _ => exact absurd hwords (Ty.words_pointer_ne base _)
  | array base n ih => cases h

/-- **The name of a type is read as that type.** -/
theorem readCast_words (last : Nat) {ty : Ty} (hty : ty.isNamed = true) {ts : List Token}
    {after : List Kind} (h : kinds ts = ty.words ++ Kind.punct .rparen :: after) :
    ∃ rest, readCast last ts = .ok (ty, rest) ∧ kinds rest.1 = after := by
  obtain ⟨ty', rest, hcast, hrest⟩ := readCast_of_kinds last ty.words_mem_typeWords h
  have hkinds := kinds_of_readCast hcast
  rw [h, hrest] at hkinds
  have hwords : ty.words = ty'.words := List.append_cancel_right hkinds
  rw [← Ty.eq_of_words hty (isNamed_of_readCast hcast) hwords] at hcast
  exact ⟨rest, hcast, hrest⟩

/-! ## §3. Elements and runs -/

/-- The words begin like an expression. -/
def BeginsExpr (ks : List Kind) : Prop := ∃ k ks', ks = k :: ks' ∧ beginsExpr k = true

/-- The words, of which `k` is the first, are read as this element if what
follows is `ok`. -/
def ReadAsNode (ok : List Kind → Prop) (k : Kind) (ks : List Kind) (n : Node) : Prop :=
  ∀ (last line : Nat) (ts : List Token) (after : List Kind), kinds ts = ks ++ after → ok after →
    ∃ n' rest, NodeRead last false ⟨k, line⟩ ts n' (some rest) ∧ kinds rest = after ∧
      lineless.node n' = n

/-- The words are read as this run, up to a word that ends it. -/
def ReadAsRun (ks : List Kind) (r : Run) : Prop :=
  ∀ (last : Nat) (stop : Stop) (ts : List Token) (k : Kind) (after : List Kind),
    stop.ends k = true → kinds ts = ks ++ k :: after →
    ∃ r' s rest, RunRead last stop false ts r' (some (s, rest)) ∧ s.kind = k ∧
      kinds rest = after ∧ lineless.run r' = r

/-- The words are read as these arguments, up to the parenthesis. -/
def ReadAsArgs (ks : List Kind) (args : Args) : Prop :=
  ∀ (last : Nat) (ts : List Token) (after : List Kind),
    kinds ts = ks ++ Kind.punct .rparen :: after →
    ∃ args' rest, ArgsRead last ts args' (some rest) ∧ kinds rest = after ∧
      lineless.args args' = args

/-- The words are read as these arguments, of which there is one at least. -/
def ReadAsMoreArgs (ks : List Kind) (args : Args) : Prop :=
  ∀ (last : Nat) (ts : List Token) (after : List Kind),
    kinds ts = ks ++ Kind.punct .rparen :: after →
    ∃ args' rest, MoreArgsRead last ts args' (some rest) ∧ kinds rest = after ∧
      lineless.args args' = args

section Elements

variable {ok : List Kind → Prop} {k : Kind} {ks us : List Kind} {n : Node} {r : Run}

/-- A constant. -/
theorem readAsNode_literal (value : Literal) : ReadAsNode ok value.kind [] value.node := by
  intro last line ts after hts _
  cases value with
  | int n => exact ⟨.int n line, ts, .int rfl, hts, rfl⟩
  | float x => exact ⟨.float x line, ts, .float rfl, hts, rfl⟩

/-- A name that no parenthesis follows. -/
theorem readAsNode_name (x : String) :
    ReadAsNode (NotNext (.punct .lparen)) (.identifier x) [] (.name x 0) := by
  intro last line ts after hts hafter
  refine ⟨.name x line, ts, .name rfl ?_, hts, rfl⟩
  rintro line' ts' rfl
  have hts : kinds (⟨.punct .lparen, line'⟩ :: ts') = after := hts
  rw [← hts] at hafter
  exact hafter.ne rfl

/-- A call. -/
theorem readAsNode_call (f : String) {args : Args} (h : ReadAsArgs ks args) :
    ReadAsNode ok (.identifier f) (inParens ks) (.call f 0 args) := by
  intro last line ts after hts _
  rw [inParens, List.cons_append, List.append_assoc] at hts
  obtain ⟨line', ts, rfl, hts'⟩ := kinds_eq_cons hts
  obtain ⟨args', rest, hread, hrest, hargs⟩ := h last ts after hts'
  refine ⟨.call f line args', rest, .call rfl hread, hrest, ?_⟩
  rw [Relabelling.node, hargs]
  rfl

/-- An expression in parentheses.  What begins an expression is no type, so it
is not read as a cast. -/
theorem readAsNode_group (hbegin : BeginsExpr ks) (h : ReadAsRun ks r) :
    ReadAsNode ok (.punct .lparen) (ks ++ [Kind.punct .rparen]) (.group r) := by
  intro last line ts after hts _
  rw [List.append_assoc] at hts
  obtain ⟨inner, s, rest, hread, _, hrest, hinner⟩ := h last .paren ts _ after rfl hts
  have hty : ¬ startsType ts = true := by
    obtain ⟨k, ks, rfl, hk⟩ := hbegin
    obtain ⟨line', ts, rfl, _⟩ := kinds_eq_cons hts
    exact Bool.eq_false_iff.1 (isType_of_beginsExpr hk)
  refine ⟨.group inner, rest, .group rfl hty hread, hrest, ?_⟩
  rw [Relabelling.node, hinner]

/-- An operator in front, with its sign or as a cast. -/
theorem readAsNode_unary (op : UnaryOp) {ty : Ty} (hty : op = .cast → ty.isNamed = true) :
    ∃ k us, op.words ty = k :: us ∧ beginsExpr k = true ∧
      ReadAsNode ok k us (.unary op (op.named ty) 0) := by
  have hsign {p : Punct} (hp : p ≠ .lparen)
      (h : ∀ line, operator? false p line = some (.unary op none line)) :
      ReadAsNode ok (.punct p) [] (.unary op none 0) := by
    intro last line ts after hts _
    exact ⟨.unary op none line, ts, .operator hp rfl (h line), hts, rfl⟩
  cases op with
  | negate => exact ⟨.punct .minus, [], rfl, rfl, hsign nofun fun _ => rfl⟩
  | not => exact ⟨.punct .bang, [], rfl, rfl, hsign nofun fun _ => rfl⟩
  | addressOf => exact ⟨.punct .amp, [], rfl, rfl, hsign nofun fun _ => rfl⟩
  | deref => exact ⟨.punct .star, [], rfl, rfl, hsign nofun fun _ => rfl⟩
  | cast =>
    refine ⟨.punct .lparen, ty.words ++ [Kind.punct .rparen], rfl, rfl, ?_⟩
    intro last line ts after hts _
    rw [List.append_assoc] at hts
    obtain ⟨rest, hcast, hrest⟩ := readCast_words last (hty rfl) hts
    have hstart := startsType_of_kinds ty.words_mem_typeWords hts
    exact ⟨.unary .cast (some ty) line, rest.1, .cast rfl hstart hcast, hrest, rfl⟩

/-- One element, up to what ends a run. -/
theorem readAsRun_last (hk : beginsExpr k = true)
    (h : ReadAsNode (NotNext (.punct .lparen)) k ks n) : ReadAsRun (k :: ks) (.last n) := by
  intro last stop ts k' after hends hts
  obtain ⟨line, ts, rfl, hts'⟩ := kinds_eq_cons hts
  obtain ⟨n', rest, hnode, hrest, hn⟩ := h last line ts _ hts' (notNext_of_ends hends after)
  obtain ⟨line', rest, rfl, hrest'⟩ := kinds_eq_cons hrest
  refine ⟨.last n', ⟨k', line'⟩, rest, .last (ends_of_beginsExpr hk) hnode hends, rfl, hrest', ?_⟩
  rw [Relabelling.run, hn]

/-- An operator in front, and the run after it. -/
theorem readAsRun_unary {op : UnaryOp} {target : Option Ty} (hk : beginsExpr k = true)
    (h : ReadAsNode (fun _ => True) k us (.unary op target 0)) (hbegin : BeginsExpr ks)
    (hrun : ReadAsRun ks r) : ReadAsRun (k :: us ++ ks) (.more (.unary op target 0) r) := by
  intro last stop ts k' after hends hts
  rw [List.append_assoc, List.cons_append] at hts
  obtain ⟨line, ts, rfl, hts'⟩ := kinds_eq_cons hts
  obtain ⟨n', rest, hnode, hrest, hn⟩ := h last line ts _ hts' trivial
  obtain ⟨r', s, rest', hread, hs, hrest', hr⟩ := hrun last stop rest k' after hends hrest
  obtain ⟨k₁, ks, rfl, hk₁⟩ := hbegin
  -- what was read is no operand, so the next sign is in front of one again
  have hoperand : n'.isOperand = false := by
    rw [← Relabelling.isOperand_node lineless, hn]
    rfl
  rw [← hoperand] at hread
  refine ⟨.more n' r', s, rest', ?_, hs, hrest', ?_⟩
  · exact .of_node (ends_of_beginsExpr hk) hnode ⟨k₁, _, hrest, ends_of_beginsExpr hk₁⟩ hread
  · rw [Relabelling.run, hn, hr]

/-- An operand, the operator after it, and the run after that. -/
theorem readAsRun_binary {p : Punct} {op : BinaryOp} (hk : beginsExpr k = true)
    (h : ReadAsNode (fun _ => True) k us n) (hn : n.isOperand = true)
    (hop : binaryOp? p = some op) (hbegin : BeginsExpr ks) (hrun : ReadAsRun ks r) :
    ReadAsRun (k :: us ++ .punct p :: ks) (.more n (.more (.binary op 0) r)) := by
  intro last stop ts k' after hends hts
  rw [List.append_assoc, List.cons_append] at hts
  obtain ⟨line, ts, rfl, hts'⟩ := kinds_eq_cons hts
  obtain ⟨n', rest, hnode, hrest, hn'⟩ := h last line ts _ hts' trivial
  obtain ⟨line', rest, rfl, hrest'⟩ := kinds_eq_cons hrest
  obtain ⟨r', s, rest', hread, hs, hafter, hr⟩ := hrun last stop rest k' after hends hrest'
  obtain ⟨k₁, ks, rfl, hk₁⟩ := hbegin
  have hoperand : n'.isOperand = true := by
    rw [← Relabelling.isOperand_node lineless, hn']
    exact hn
  -- from the back: the run, the operator before it, and the operand before that
  have hmore := RunRead.of_node (ends_of_binaryOp? hop) (nodeRead_binary line' hop)
    ⟨k₁, _, hrest', ends_of_beginsExpr hk₁⟩ hread
  rw [← hoperand] at hmore
  have hall := RunRead.of_node (ends_of_beginsExpr hk) hnode
    ⟨_, _, hrest, ends_of_binaryOp? hop⟩ hmore
  refine ⟨_, s, _, hall, hs, hafter, ?_⟩
  rw [Relabelling.run, hn', Relabelling.run, hr]
  rfl

end Elements

/-! ## §4. Expressions -/

/-- Whatever an expression is, its words begin like one. -/
theorem Expr.beginsExpr_words (Γ : Symbols) (e : Expr) : BeginsExpr (e.words Γ) := by
  cases e with
  | literal value ty line => exact ⟨value.kind, [], rfl, by cases value <;> rfl⟩
  | var v ty line => exact ⟨_, _, rfl, rfl⟩
  | call f args ty line => exact ⟨_, _, rfl, rfl⟩
  | unary op e ty line =>
    cases op <;> exact ⟨_, _, rfl, rfl⟩
  | binary op l r ty line => exact ⟨_, _, rfl, rfl⟩

theorem beginsExpr_inParens (ks : List Kind) : BeginsExpr (inParens ks) := ⟨_, _, rfl, rfl⟩

theorem binaryOp?_binaryPunct (op : BinaryOp) : binaryOp? (binaryPunct op) = some op := by
  rcases op with _ | ⟨⟨⟩⟩ | ⟨⟨⟩⟩ | ⟨⟨⟩⟩ | ⟨⟨⟩⟩ <;> rfl

section Arguments

variable {ks : List Kind} {r : Run} {args : Args}

/-- The last of the arguments. -/
theorem readAsMoreArgs_last (h : ReadAsRun ks r) : ReadAsMoreArgs ks (.arg r .none) := by
  intro last ts after hts
  obtain ⟨r', s, rest, hrun, hs, hrest, hr⟩ := h last .argument ts _ after rfl hts
  have hcomma : ¬ s.kind = .punct .comma := by
    rw [hs]
    nofun
  refine ⟨.arg r' .none, rest, .last hrun hcomma, hrest, ?_⟩
  rw [Relabelling.args, hr]
  rfl

/-- An argument, a comma, and those after it. -/
theorem readAsMoreArgs_comma {ks' : List Kind} (h : ReadAsRun ks r)
    (hmore : ReadAsMoreArgs ks' args) :
    ReadAsMoreArgs (ks ++ .punct .comma :: ks') (.arg r args) := by
  intro last ts after hts
  rw [List.append_assoc, List.cons_append] at hts
  obtain ⟨r', s, rest, hrun, hs, hrest, hr⟩ := h last .argument ts _ _ rfl hts
  obtain ⟨args', rest', hread, hrest', hargs⟩ := hmore last rest after hrest
  refine ⟨.arg r' args', rest', .comma hrun hs hread, hrest', ?_⟩
  rw [Relabelling.args, hr, hargs]

/-- Words that begin like an expression are not the end of the arguments. -/
theorem readAsArgs_more (hbegin : BeginsExpr ks) (h : ReadAsMoreArgs ks args) :
    ReadAsArgs ks args := by
  intro last ts after hts
  have hne : ∀ line after, ts = ⟨.punct .rparen, line⟩ :: after → False := by
    rintro line after' rfl
    obtain ⟨k, ks, rfl, hk⟩ := hbegin
    cases (List.cons.inj hts).1
    cases hk
  obtain ⟨args', rest, hread, hrest⟩ := h last ts after hts
  exact ⟨args', rest, .some hne hread, hrest⟩

/-- Arguments begin as expressions do. -/
theorem Expr.beginsExpr_argWords (Γ : Symbols) (e : Expr) (es : List Expr) :
    BeginsExpr (Expr.argWords Γ (e :: es)) := by
  obtain ⟨k, ks, hwords, hk⟩ := e.beginsExpr_words Γ
  cases es with
  | nil =>
    rw [Expr.argWords]
    exact ⟨k, ks, hwords, hk⟩
  | cons e' es =>
    rw [Expr.argWords, hwords]
    exact ⟨k, _, rfl, hk⟩

/-- Arguments, of which there may be none. -/
theorem readAsArgs_argWords (Γ : Symbols) (args : List Expr)
    (h : args ≠ [] → ReadAsMoreArgs (Expr.argWords Γ args) (Expr.outlines Γ args)) :
    ReadAsArgs (Expr.argWords Γ args) (Expr.outlines Γ args) := by
  cases args with
  | nil =>
    intro last ts after hts
    obtain ⟨line, rest, rfl, hrest⟩ := kinds_eq_cons hts
    exact ⟨.none, rest, .none, hrest, rfl⟩
  | cons e es => exact readAsArgs_more (e.beginsExpr_argWords Γ es) (h (List.cons_ne_nil e es))

end Arguments

mutual

/-- **The words of an expression are read as its outline.** -/
theorem reads_words {env : Check.Env} (Γ : Symbols) : (e : Expr) → e.Printable env →
    ReadAsRun (e.words Γ) (e.outline Γ)
  | .literal value ty line, _ => by
    refine readAsRun_last ?_ (readAsNode_literal value)
    cases value <;> rfl
  | .var v ty line, _ => readAsRun_last rfl (readAsNode_name _)
  | .call f args ty line, h => by
    cases h with
    | call _ _ _ hargs =>
      have hread := readAsArgs_argWords Γ args fun hne => reads_argWords Γ args hne hargs
      exact readAsRun_last rfl (readAsNode_call _ hread)
  | .unary op e ty line, h => by
    cases h with
    | unary hcast he =>
      obtain ⟨k, us, hwords, hk, hnode⟩ := readAsNode_unary op hcast
      have hgroup : ReadAsRun (inParens (e.words Γ)) (.last (.group (e.outline Γ))) :=
        readAsRun_last rfl (readAsNode_group (e.beginsExpr_words Γ) (reads_words Γ e he))
      rw [Expr.words, hwords]
      exact readAsRun_unary hk hnode (beginsExpr_inParens _) hgroup
  | .binary op l r ty line, h => by
    cases h with
    | binary hl hr =>
      have hgroup : ReadAsRun (inParens (r.words Γ)) (.last (.group (r.outline Γ))) :=
        readAsRun_last rfl (readAsNode_group (r.beginsExpr_words Γ) (reads_words Γ r hr))
      exact readAsRun_binary rfl (readAsNode_group (l.beginsExpr_words Γ) (reads_words Γ l hl))
        rfl (binaryOp?_binaryPunct op) (beginsExpr_inParens _) hgroup

/-- The words of arguments are read as their outlines. -/
theorem reads_argWords {env : Check.Env} (Γ : Symbols) : (args : List Expr) → args ≠ [] →
    (∀ a ∈ args, a.Printable env) → ReadAsMoreArgs (Expr.argWords Γ args) (Expr.outlines Γ args)
  | [], hne, _ => absurd rfl hne
  | [e], _, h => readAsMoreArgs_last (reads_words Γ e (h e List.mem_cons_self))
  | e :: e' :: es, _, h => by
    obtain ⟨he, hes⟩ := List.forall_mem_cons.1 h
    exact readAsMoreArgs_comma (reads_words Γ e he)
      (reads_argWords Γ (e' :: es) (List.cons_ne_nil e' es) hes)

end

end MiniC
