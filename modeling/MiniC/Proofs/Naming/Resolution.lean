/-
  MiniC.Proofs.Naming.Resolution

  **Names are resolved by the text alone.**

  A checked program has references where its text has names.  Read off in
  order (`Program.refs`, `occurrencesFrom`) the two go together one to one, and
  each name refers to what its innermost visible declaration stands for.

  Checking a phrase leads from a scope that reflects the text before it to
  one that reflects the text with it (`Resolved`).  Such steps compose, so
  there is one lemma for each kind of phrase.
-/
import MiniC.Proofs.Checking.Owners
import MiniC.Proofs.Checking.Whole
import MiniC.Proofs.Naming.Visibility

namespace MiniC

variable {e' : Expr}

/-! ## §1. References of a tree -/

mutual

/-- The variables and functions that an expression names, in source order. -/
def Expr.refs : Expr → List Binding
  | .literal .. => []
  | .var v _ _ => [.var v]
  | .call f args _ _ => .func f :: Expr.refsOf args
  | .unary _ operand _ _ => operand.refs
  | .binary _ left right _ _ => left.refs ++ right.refs

/-- Those that expressions name. -/
def Expr.refsOf : List Expr → List Binding
  | [] => []
  | e :: es => e.refs ++ Expr.refsOf es

end

/-- Those that an expression names, if there is one. -/
def Expr.refs? (e : Option Expr) : List Binding := e.elim [] Expr.refs

mutual

/-- Those that a statement names. -/
def Stmt.refs : Stmt → List Binding
  | .declare _ init => Expr.refs? init
  | .expr e => e.refs
  | .ret value => Expr.refs? value
  | .branch cond body otherwise => cond.refs ++ (Stmt.refsOf body ++ otherwise.refs)
  | .loop cond body => cond.refs ++ Stmt.refsOf body
  | .leave | .again => []

/-- Those named in what is done if a condition fails. -/
def Else.refs : Else → List Binding
  | .nothing => []
  | .branch cond body otherwise => cond.refs ++ (Stmt.refsOf body ++ otherwise.refs)
  | .block body => Stmt.refsOf body

/-- Those that statements name. -/
def Stmt.refsOf : List Stmt → List Binding
  | [] => []
  | s :: ss => s.refs ++ Stmt.refsOf ss

end

/-- Those that an item names.  The value of a global is a constant. -/
def Item.refs : Item → List Binding
  | .function f => Stmt.refsOf f.body
  | .global _ _ => []

/-- Those that a program names, in source order. -/
def Program.refs (p : Program) : List Binding := p.items.flatMap Item.refs

/-- Those that an element of a run names. -/
def Part.refs : Part Expr → List Binding
  | .operand e _ => e.refs
  | _ => []

/-! ## §2. Typing keeps references -/

@[simp] theorem Expr.refs_retype (e : Expr) (ty : Ty) : (e.retype ty).refs = e.refs := by
  cases e <;> simp [Expr.retype, Expr.refs]

@[simp] theorem Typing.refs_implicitCast (e : Expr) (ty : Ty) :
    (Typing.implicitCast e ty).refs = e.refs := by
  simp [Typing.implicitCast, Expr.refs]

theorem Typing.Converts.refs {e : Expr} (h : Converts e e') : e'.refs = e.refs := by
  cases h with
  | same => rfl
  | cast => exact refs_implicitCast _ _
  | decay _ => exact Expr.refs_retype _ _

theorem Typing.refs_of_coerce {e : Expr} {ty : Ty} (h : Typing.coerce e ty = .ok e') :
    e'.refs = e.refs :=
  (converts_of_coerce h).refs

theorem Typing.refs_of_binary {op : BinaryOp} {l r e : Expr} {line : Nat}
    (h : Typing.binary op l r line = .ok e) : e.refs = l.refs ++ r.refs := by
  obtain ⟨l', r', ty, rfl, hl, hr⟩ := converts_of_binary h
  rw [Expr.refs, hl.refs, hr.refs]

theorem Typing.refs_of_unary {op : UnaryOp} {target : Option Ty} {e : Expr} {line : Nat}
    (h : Typing.unary op target e line = .ok e') : e'.refs = e.refs := by
  obtain ⟨ty, _, h⟩ := bind_eq_ok.1 h
  cases h
  rw [Expr.refs]

namespace Check

variable {env env' : Env} {f : FuncId} {sig : Outline.Signature}

/-- A finished expression refers to what its parts do. -/
theorem refs_of_finish {t : Tree Expr} {line : Nat} {e : Expr}
    (h : Precedence.finish line t = .ok e) : e.refs = t.reading.flatMap Part.refs := by
  induction t generalizing line e with
  | hole => cases h
  | operand a line' =>
    cases h
    simp [Tree.reading, Part.refs]
  | unary op target line' arg ih =>
    obtain ⟨a, harg, h⟩ := bind_eq_ok.1 h
    rw [Typing.refs_of_unary (typed_eq_ok h), ih harg]
    simp [Tree.reading, Part.refs]
  | binary op line' left right ihl ihr =>
    obtain ⟨a, hleft, h⟩ := bind_eq_ok.1 h
    obtain ⟨b, hright, h⟩ := bind_eq_ok.1 h
    rw [Typing.refs_of_binary (typed_eq_ok h), ihl hleft, ihr hright]
    simp [Tree.reading, Part.refs]

/-- **Putting a run into a tree keeps its references in order.** -/
theorem refs_of_resolve {ps : List (Part Expr)} {e : Expr} (h : Precedence.resolve ps = .ok e) :
    e.refs = ps.flatMap Part.refs := by
  obtain ⟨t, _, hf, _, rfl⟩ := Precedence.collapse_of_resolve h
  exact refs_of_finish hf

/-- A constant names nothing. -/
theorem refs_of_constant? : (e : Expr) → {value : Literal} → e.constant? = some value → e.refs = []
  | .literal .., _, _ => rfl
  | .var .., _, h => by cases h
  | .call .., _, h => by cases h
  | .binary .., _, h => by cases h
  | .unary op operand ty line, value, h => by
    rw [Expr.refs]
    have hoperand : ∃ value', operand.constant? = some value' := by
      cases hc : operand.constant? with
      | some value' => exact ⟨value', rfl⟩
      | none => cases op <;> simp [Expr.constant?, hc] at h
    obtain ⟨value', hvalue⟩ := hoperand
    exact refs_of_constant? operand hvalue

/-! ## §3. Steps -/

/-- Checking the phrase with marks `ms` after the text `t` leads from one
environment to another and finds these references. -/
structure Resolved (env env' : Env) (t ms : List Mark) (refs : List Binding) : Prop where
  after : Reflects env'.scope env'.symbols (t ++ ms)
  occurrences : List.Forall₂ (Refers env'.symbols) (occurrencesFrom t ms) refs
  grows : env.symbols.Extends env'.symbols
  /-- As many blocks close as open. -/
  balanced : depth ms = 0

namespace Resolved

variable {env env' env'' : Env} {t ms ms' : List Mark} {refs refs' : List Binding}

/-- Nothing yet. -/
theorem start (h : Reflects env.scope env.symbols t) : Resolved env env t [] [] :=
  ⟨by rwa [List.append_nil], .nil, .refl _, rfl⟩

/-- **One phrase after another.** -/
theorem next (h : Resolved env env' t ms refs)
    (h' : Reflects env'.scope env'.symbols (t ++ ms) → Resolved env' env'' (t ++ ms) ms' refs') :
    Resolved env env'' t (ms ++ ms') (refs ++ refs') := by
  obtain ⟨hafter, hoccs, hgrows, hbalanced⟩ := h' h.after
  refine ⟨by rwa [← List.append_assoc], ?_, h.grows.trans hgrows, ?_⟩
  · rw [occurrencesFrom_append]
    exact List.rel_append (h.occurrences.imp fun _ _ ho => ho.mono hgrows) hoccs
  · rw [depth_append, h.balanced, hbalanced]
    rfl

/-- A word more. -/
theorem word (h : Resolved env env' t ms refs) (k : Kind) :
    Resolved env env' t (ms ++ [.word k]) refs := by
  have hword := h.next fun hr => ⟨hr.neutral (m := .word k) rfl, .nil, .refl _, rfl⟩
  rwa [List.append_nil] at hword

/-- Words more. -/
theorem words (h : Resolved env env' t ms refs) (ks : List Kind) :
    Resolved env env' t (ms ++ ks.map .word) refs := by
  induction ks generalizing ms with
  | nil => rwa [List.map_nil, List.append_nil]
  | cons k ks ih =>
    have hks := ih (h.word k)
    rwa [List.append_assoc, List.singleton_append] at hks

theorem congr (h : Resolved env env' t ms refs) (hms : ms' = ms) (hrefs : refs' = refs) :
    Resolved env env' t ms' refs' := by
  rw [hms, hrefs]
  exact h

/-- **A block**, with a frame of its own. -/
theorem block (hr : Reflects env.scope env.symbols t)
    (h : Reflects env.scope.push env.symbols (t ++ [.opens]) →
      Resolved ⟨env.scope.push, env.symbols⟩ env' (t ++ [.opens]) ms refs) :
    Resolved env ⟨env'.scope.pop, env'.symbols⟩ t (.opens :: (ms ++ [.closes])) refs := by
  have h := h hr.push
  have hms : t ++ .opens :: (ms ++ [.closes]) = t ++ [.opens] ++ ms ++ [.closes] := by simp
  refine ⟨?_, ?_, h.grows, ?_⟩
  · rw [hms]
    refine h.after.pop ?_
    -- the block that was opened is still open
    have hheight := hr.height
    have hpos : 0 < env.scope.levels.length := List.length_pos_of_ne_nil (List.cons_ne_nil _ _)
    rw [depth_append, depth_append, depth_opens, h.balanced]
    omega
  · rw [← List.singleton_append, occurrencesFrom_append, occurrencesFrom_append]
    have hnone : occurrencesFrom (t ++ [.opens] ++ ms) [.closes] = [] := rfl
    rw [hnone, List.append_nil]
    exact h.occurrences
  · rw [depth_cons, depth_append, h.balanced]
    rfl

/-- A variable is declared. -/
theorem declare {st st' : State} {sym : VarSymbol} {v : VarId}
    (hr : Reflects st.scope st.symbols t) (h : st.declare sym = .ok (v, st')) :
    Resolved st.toEnv st'.toEnv t [.varDecl sym.name sym.line] [] := by
  obtain ⟨rfl, hsym, hadd, _⟩ := declare_eq_ok h
  refine ⟨?_, .nil, ?_, rfl⟩
  · rw [hsym]
    exact hr.withVar hadd
  · rw [hsym]
    exact Symbols.extends_withVar _ _

end Resolved

/-! ## §4. Expressions -/

/-- Neutral marks leave the depth as it is. -/
theorem depth_of_neutral {ms : List Mark} (h : ms.all Mark.isNeutral = true) : depth ms = 0 := by
  induction ms with
  | nil => rfl
  | cons m ms ih =>
    rw [List.all_cons, Bool.and_eq_true] at h
    rw [depth_cons, depth_of_isNeutral h.1, ih h.2]
    rfl

/-- For an expression only its occurrences are to be seen. -/
theorem Resolved.of_neutral {t ms : List Mark} {refs : List Binding}
    (hr : Reflects env.scope env.symbols t) (hms : ms.all Mark.isNeutral = true)
    (h : List.Forall₂ (Refers env.symbols) (occurrencesFrom t ms) refs) :
    Resolved env env t ms refs :=
  ⟨hr.neutrals (List.all_eq_true.1 hms), h, .refl _, depth_of_neutral hms⟩

section

variable {env : Env}

mutual

/-- The names of an operand are resolved as the text says. -/
theorem node_resolved : (n : Outline.Node) → {t : List Mark} → {p : Part Expr} →
    Reflects env.scope env.symbols t → node env n = .ok p → Resolved env env t n.marks p.refs
  | .int n line, t, p, hr, h => by
    cases h
    exact (Resolved.start hr).word _
  | .float x line, t, p, hr, h => by
    cases h
    exact (Resolved.start hr).word _
  | .name x line, t, p, hr, h => by
    obtain ⟨⟨v, sym⟩, hv, h⟩ := bind_eq_ok.1 h
    cases h
    obtain ⟨hget, _⟩ := Env.var_eq_ok hv
    exact .of_neutral hr rfl (.cons (hr.refers hget rfl) .nil)
  | .call f line args, t, p, hr, h => by
    obtain ⟨⟨f', sym⟩, hf, h⟩ := bind_eq_ok.1 h
    obtain ⟨as, has, h⟩ := bind_eq_ok.1 h
    cases h
    obtain ⟨hget, _⟩ := Env.func_eq_ok hf
    have hname : Resolved env env t [.funcUse f] [.func f'] :=
      .of_neutral hr rfl (.cons (hr.refers hget rfl) .nil)
    have hcall := (((hname.word (.identifier f)).word (.punct .lparen)).next
      (arguments_resolved args · has)).word (.punct .rparen)
    refine hcall.congr ?_ ?_
    · simp [Outline.Node.marks]
    · simp [operand, Part.refs, Expr.refs]
  | .group inner, t, p, hr, h => by
    obtain ⟨ps, hps, h⟩ := bind_eq_ok.1 h
    obtain ⟨e, he, h⟩ := bind_eq_ok.1 h
    cases h
    have hgroup := (((Resolved.start hr).word (.punct .lparen)).next
      (parts_resolved inner · hps)).word (.punct .rparen)
    refine hgroup.congr ?_ ?_
    · simp [Outline.Node.marks]
    · exact refs_of_resolve he
  | .unary op none line, t, p, hr, h => by
    cases h
    cases op <;> first | exact .start hr | exact (Resolved.start hr).word _
  | .unary op (some ty) line, t, p, hr, h => by
    cases h
    have hcast := (((Resolved.start hr).word (.punct .lparen)).words ty.words).word
      (.punct .rparen)
    refine hcast.congr ?_ rfl
    simp [Outline.Node.marks]
  | .binary op line, t, p, hr, h => by
    cases h
    exact (Resolved.start hr).word _
  | .broken f, t, p, hr, h => by cases h

/-- The names of a run are resolved as the text says. -/
theorem parts_resolved : (r : Outline.Run) → {t : List Mark} → {ps : List (Part Expr)} →
    Reflects env.scope env.symbols t → parts env r = .ok ps →
    Resolved env env t r.marks (ps.flatMap Part.refs)
  | .last n, t, ps, hr, h => by
    obtain ⟨p, hp, h⟩ := bind_eq_ok.1 h
    cases h
    refine (node_resolved n hr hp).congr rfl ?_
    simp
  | .more n rest, t, ps, hr, h => by
    obtain ⟨p, hp, h⟩ := bind_eq_ok.1 h
    obtain ⟨ps, hps, h⟩ := bind_eq_ok.1 h
    cases h
    exact (node_resolved n hr hp).next (parts_resolved rest · hps)

/-- The names of arguments are resolved as the text says. -/
theorem arguments_resolved {line : Nat} : (args : Outline.Args) → {params : List Ty} →
    {t : List Mark} → {es : List Expr} → Reflects env.scope env.symbols t →
    arguments env line params args = .ok es → Resolved env env t args.marks (Expr.refsOf es)
  | .none, [], t, es, hr, h => by
    cases h
    exact .start hr
  | .none, _ :: _, t, es, hr, h => by cases h
  | .arg r rest, [], t, es, hr, h => by cases h
  | .arg r rest, ty :: params, t, es, hr, h => by
    obtain ⟨ps, hps, h⟩ := bind_eq_ok.1 h
    obtain ⟨e, he, h⟩ := bind_eq_ok.1 h
    obtain ⟨e', he', h⟩ := bind_eq_ok.1 h
    obtain ⟨es, hes, h⟩ := bind_eq_ok.1 h
    cases h
    have hfirst := parts_resolved r hr hps
    have hrefs : e'.refs = ps.flatMap Part.refs := by
      rw [Typing.refs_of_coerce (typed_eq_ok he'), refs_of_resolve he]
    cases rest with
    | none =>
      cases params with
      | nil =>
        cases hes
        refine hfirst.congr rfl ?_
        rw [Expr.refsOf, Expr.refsOf, hrefs, List.append_nil]
      | cons _ _ => cases hes
    | arg r' rest' =>
      refine ((hfirst.word (.punct .comma)).next
        (arguments_resolved (.arg r' rest') · hes)).congr ?_ ?_
      · simp [Outline.Args.marks]
      · rw [Expr.refsOf, hrefs]

end

/-- **Every name in an expression refers to what it is resolved to.** -/
theorem run_resolved {t : List Mark} {r : Outline.Run} {e : Expr}
    (hr : Reflects env.scope env.symbols t) (h : run env r = .ok e) :
    Resolved env env t r.marks e.refs := by
  obtain ⟨ps, hps, he⟩ := bind_eq_ok.1 h
  exact (parts_resolved r hr hps).congr rfl (refs_of_resolve he)

/-- The names of a condition are resolved as the text says. -/
theorem condition_resolved {t : List Mark} {r : Outline.Run} {e : Expr}
    (hr : Reflects env.scope env.symbols t) (h : condition env r = .ok e) :
    Resolved env env t r.marks e.refs := by
  obtain ⟨e', he, h⟩ := bind_eq_ok.1 h
  dsimp only at h
  split at h
  · cases h
  · cases h
    exact run_resolved hr he

/-! ## §5. Statements -/

/-- The length of an array names nothing. -/
theorem lengths_resolved : (rs : List Outline.Run) → {t : List Mark} → {ns : List Nat} →
    Reflects env.scope env.symbols t → lengths env rs = .ok ns →
    Resolved env env t (Outline.lengthMarks rs) []
  | [], t, ns, hr, h => .start hr
  | r :: rs, t, ns, hr, h => by
    obtain ⟨e, he, h⟩ := bind_eq_ok.1 h
    obtain ⟨n, hn, h⟩ := bind_eq_ok.1 h
    obtain ⟨ns, hns, h⟩ := bind_eq_ok.1 h
    have hrefs : e.refs = [] := by
      unfold lengthOf at hn
      split at hn
      · rfl
      · cases hn
    have hlength := ((((Resolved.start hr).word (.punct .lbracket)).next
      (run_resolved · he)).word (.punct .rbracket)).next (lengths_resolved rs · hns)
    refine hlength.congr ?_ ?_
    · simp [Outline.lengthMarks]
    · rw [hrefs]
      rfl

/-- The names of an initial value are resolved as the text says. -/
theorem initial_resolved {t : List Mark} {ty : Ty} {line : Nat} {i : Outline.Initial}
    {init : Option Expr} (hr : Reflects env.scope env.symbols t)
    (h : initial env ty line i = .ok init) :
    Resolved env env t i.marks (Expr.refs? init) := by
  cases i with
  | none =>
    cases h
    exact (Resolved.start hr).word _
  | broken f => cases h
  | value r =>
    rw [initial] at h
    split at h
    · cases h
    · obtain ⟨e', he', h⟩ := bind_eq_ok.1 h
      cases h
      obtain ⟨e, he, hcoerce⟩ := bind_eq_ok.1 he'
      have hvalue := (((Resolved.start hr).word (.punct .eq)).next
        (run_resolved · he)).word (.punct .semicolon)
      refine hvalue.congr ?_ ?_
      · simp [Outline.Initial.marks]
      · exact Typing.refs_of_coerce (typed_eq_ok hcoerce)

end

/-- **A variable is declared after the expressions in its declaration.** -/
theorem declaration_resolved {st st' : State} {storage : Storage} {d : Outline.Declaration}
    {v : VarId} {init : Option Expr} {t : List Mark} (hr : Reflects st.scope st.symbols t)
    (h : declaration st storage d = .ok ((v, init), st')) :
    Resolved st.toEnv st'.toEnv t d.marks (Expr.refs? init) := by
  unfold declaration at h
  split at h
  · cases h
  · obtain ⟨lens, hlens, h⟩ := bind_eq_ok.1 h
    obtain ⟨init', hinit, h⟩ := bind_eq_ok.1 h
    obtain ⟨⟨v', st''⟩, hd, h⟩ := bind_eq_ok.1 h
    cases h
    have hhead := ((Resolved.start hr).words d.base.words).word (.identifier d.name)
    have hdecl := ((hhead.next (lengths_resolved d.lengths · hlens)).next
      (initial_resolved · hinit)).next (Resolved.declare · hd)
    refine hdecl.congr ?_ ?_
    · simp [Outline.Declaration.marks]
    · simp

/-- A block with its braces, and what is declared before them. -/
theorem block_resolved {st st₁ st' : State} {t entry body : List Mark} {refs : List Binding}
    (hr : Reflects st.scope st.symbols t)
    (hentry : ∀ {t}, Reflects st.push.scope st.push.symbols t →
      Resolved st.push.toEnv st₁.toEnv t entry [])
    (hbody : ∀ {t}, Reflects st₁.scope st₁.symbols t →
      Resolved st₁.toEnv st'.toEnv t body refs) :
    Resolved st.toEnv st'.pop.toEnv t (Outline.block entry body) refs := by
  have hblock : Resolved st.toEnv st'.pop.toEnv t _ _ := Resolved.block hr fun hr =>
    (((hentry hr).word (.punct .lbrace)).next hbody).word (.punct .rbrace)
  refine hblock.congr ?_ rfl
  simp [Outline.block]

mutual

/-- The names of a statement are resolved as the text says. -/
theorem StmtChecked.resolved {ret : Ty} {depth : Nat} {st st' : State} {s : Outline.Stmt}
    {s' : Stmt} {t : List Mark} (h : StmtChecked ret depth st s s' st')
    (hr : Reflects st.scope st.symbols t) :
    Resolved st.toEnv st'.toEnv t s.marks s'.refs := by
  cases h with
  | declare h => exact declaration_resolved hr h
  | expr he => exact (run_resolved hr he).word (.punct .semicolon)
  | ret => exact ((Resolved.start hr).word (.keyword .kwReturn)).word (.punct .semicolon)
  | retValue _ he he' =>
    have hvalue := (((Resolved.start hr).word (.keyword .kwReturn)).next
      (run_resolved · he)).word (.punct .semicolon)
    refine hvalue.congr ?_ ?_
    · simp [Outline.Stmt.marks]
    · exact Typing.refs_of_coerce he'
  | branch hc hb ho =>
    have htest := ((((Resolved.start hr).word (.keyword .kwIf)).word (.punct .lparen)).next
      (condition_resolved · hc)).word (.punct .rparen)
    have hbranch := (htest.next (block_resolved · .start (hb.resolved ·))).next (ho.resolved ·)
    refine hbranch.congr ?_ ?_
    · simp [Outline.Stmt.marks]
    · simp [Stmt.refs]
  | loop hc hb =>
    have htest := ((((Resolved.start hr).word (.keyword .kwWhile)).word (.punct .lparen)).next
      (condition_resolved · hc)).word (.punct .rparen)
    refine (htest.next (block_resolved · .start (hb.resolved ·))).congr ?_ ?_
    · simp [Outline.Stmt.marks]
    · simp [Stmt.refs]
  | leave => exact ((Resolved.start hr).word (.keyword .kwBreak)).word (.punct .semicolon)
  | again => exact ((Resolved.start hr).word (.keyword .kwContinue)).word (.punct .semicolon)

/-- The names of the other branch are resolved as the text says. -/
theorem ElseChecked.resolved {ret : Ty} {depth : Nat} {st st' : State} {o : Outline.Else}
    {o' : Else} {t : List Mark} (h : ElseChecked ret depth st o o' st')
    (hr : Reflects st.scope st.symbols t) :
    Resolved st.toEnv st'.toEnv t o.marks o'.refs := by
  cases h with
  | nothing => exact .start hr
  | branch hc hb ho =>
    have htest := (((((Resolved.start hr).word (.keyword .kwElse)).word (.keyword .kwIf)).word
      (.punct .lparen)).next (condition_resolved · hc)).word (.punct .rparen)
    have hbranch := (htest.next (block_resolved · .start (hb.resolved ·))).next (ho.resolved ·)
    refine hbranch.congr ?_ ?_
    · simp [Outline.Else.marks]
    · simp [Else.refs]
  | block hb =>
    exact ((Resolved.start hr).word (.keyword .kwElse)).next
      (block_resolved · .start (hb.resolved ·))

/-- **Every name in a statement refers to what it is resolved to.** -/
theorem StmtsChecked.resolved {ret : Ty} {depth : Nat} {st st' : State}
    {ss : List Outline.Stmt} {ss' : List Stmt} {t : List Mark}
    (h : StmtsChecked ret depth st ss ss' st') (hr : Reflects st.scope st.symbols t) :
    Resolved st.toEnv st'.toEnv t (Outline.Stmt.marksOf ss) (Stmt.refsOf ss') := by
  cases h with
  | nil => exact .start hr
  | cons h hs => exact (h.resolved hr).next (hs.resolved ·)

end

/-! ## §6. Items -/

/-- A head without the note that it declares the function. -/
def headWords (sig : Outline.Signature) : List Kind :=
  sig.ret.words ++ .identifier sig.name :: .punct .lparen ::
    (words (Outline.paramMarks sig.params) ++ [.punct .rparen])

/-- Parameters are words only. -/
theorem paramMarks_eq : (ps : List Outline.Param) →
    Outline.paramMarks ps = (words (Outline.paramMarks ps)).map .word
  | [] => rfl
  | [p] => by simp [Outline.paramMarks, Outline.Param.marks]
  | p :: p' :: ps => by
    have ih := paramMarks_eq (p' :: ps)
    rw [Outline.paramMarks, words_append, words_word, List.map_append, List.map_cons, ← ih]
    simp [Outline.Param.marks]

theorem marks_signature (sig : Outline.Signature) :
    sig.marks = (headWords sig).map .word ++ [.funcDecl sig.name] := by
  have hparams := paramMarks_eq sig.params
  simp [Outline.Signature.marks, headWords, ← hparams]

/-- A new function is declared where its name stands. -/
theorem newFunction_resolved {sym : FuncSymbol} {t : List Mark}
    (hr : Reflects env.scope env.symbols t) (h : newFunction env sym = .ok (f, env')) :
    Resolved env env' t [.funcDecl sym.name] [] := by
  obtain ⟨rfl, hsym, hadd⟩ := newFunction_eq_ok h
  refine ⟨?_, .nil, ?_, rfl⟩
  · rw [hsym]
    exact hr.withFunc hadd
  · rw [hsym]
    exact Symbols.extends_withFunc _ _

/-- Outside all blocks a head declares its function, be it once more. -/
theorem declareFunction_resolved {tys : List Ty} {t : List Mark}
    (hr : Reflects env.scope env.symbols t) (hinner : env.scope.inner = [])
    (h : declareFunction env sig tys = .ok (f, env')) :
    Resolved env env' t [.funcDecl sig.name] [] := by
  obtain hnew | ⟨rfl, hget, _⟩ := declareFunction_eq_ok h
  · exact newFunction_resolved hr hnew
  · exact ⟨hr.again hinner hget, .nil, .refl _, rfl⟩

/-- A definition declares nothing new. -/
theorem defineFunction_resolved {t : List Mark} (hr : Reflects env.scope env.symbols t)
    (h : defineFunction env f sig = .ok env') : Resolved env env' t [] [] := by
  unfold defineFunction at h
  split at h
  · cases h
  · cases h
    have hext := Symbols.extends_define env.symbols f
    refine ⟨?_, .nil, hext, rfl⟩
    rw [List.append_nil]
    exact hr.mono hext rfl

/-- Parameters are declared in order. -/
theorem declareParams_resolved : (ps : List Outline.Param) → {st st' : State} →
    {vs : List VarId} → {t : List Mark} → Reflects st.scope st.symbols t →
    declareParams st ps = .ok (vs, st') →
    Resolved st.toEnv st'.toEnv t (Outline.paramDecls ps) []
  | [], st, st', vs, t, hr, h => by
    cases h
    exact .start hr
  | p :: ps, st, st', vs, t, hr, h => by
    obtain ⟨⟨v, st₁⟩, hv, h⟩ := bind_eq_ok.1 h
    obtain ⟨⟨vs, st₂⟩, hvs, h⟩ := bind_eq_ok.1 h
    cases h
    exact (Resolved.declare hr hv).next (declareParams_resolved ps · hvs)

/-- The parameters of a function are declared in the block of its body. -/
theorem functionBody_resolved {body : List Outline.Stmt} {g : Function} {t : List Mark}
    (hr : Reflects env.scope env.symbols t) (h : functionBody env f sig body = .ok (g, env')) :
    Resolved env env' t
      (Outline.block (Outline.paramDecls sig.params) (Outline.Stmt.marksOf body))
      (Stmt.refsOf g.body) := by
  obtain ⟨env₁, hdef, h⟩ := bind_eq_ok.1 h
  obtain ⟨⟨vs, st₁⟩, hps, h⟩ := bind_eq_ok.1 h
  obtain ⟨⟨body', st₂⟩, hbody, h⟩ := bind_eq_ok.1 h
  cases h
  exact (defineFunction_resolved hr hdef).next (block_resolved ·
    (declareParams_resolved sig.params · hps) ((stmtsChecked_of_stmts body hbody).resolved ·))

/-- Where no block is open the global frame is the only one. -/
theorem inner_eq_nil {s : Scope} {Γ : Symbols} {t : List Mark} (h : Reflects s Γ t)
    (hdepth : depth t = 0) : s.inner = [] := by
  have hheight := h.height
  rw [hdepth, Scope.levels, List.length_cons, List.length_reverse] at hheight
  exact List.length_eq_zero_iff.1 (by omega)

/-- **Every name in an item refers to what it is resolved to.** -/
theorem ItemChecked.resolved {found found' : Found} {i : Outline.Item} {t : List Mark}
    (h : ItemChecked found i found') (hr : Reflects found.env.scope found.env.symbols t)
    (hdepth : depth t = 0) :
    ∃ refs, found'.items.flatMap Item.refs = found.items.flatMap Item.refs ++ refs ∧
      Resolved found.env found'.env t i.marks refs := by
  cases h with
  | @imported sig tys f env hsig hnew =>
    have hhead := ((Resolved.start hr).word (.keyword .kwExtern)).words (headWords sig)
    have hitem := (hhead.next (newFunction_resolved · hnew)).word (.punct .semicolon)
    refine ⟨[], (List.append_nil _).symm, hitem.congr ?_ rfl⟩
    simp [Outline.Item.marks, marks_signature]
  | @declared sig tys f env hsig hdecl =>
    have hhead := (Resolved.start hr).words (headWords sig)
    have hitem := (hhead.next fun hr => declareFunction_resolved hr
      (inner_eq_nil hr (by rw [depth_append, hdepth, hhead.balanced]; rfl)) hdecl).word
      (.punct .semicolon)
    refine ⟨[], (List.append_nil _).symm, hitem.congr ?_ rfl⟩
    simp [Outline.Item.marks, Outline.Body.marks, marks_signature]
  | @defined sig tys f env env' body g hsig hdecl hbody =>
    have hhead := (Resolved.start hr).words (headWords sig)
    have hitem := (hhead.next fun hr => declareFunction_resolved hr
      (inner_eq_nil hr (by rw [depth_append, hdepth, hhead.balanced]; rfl)) hdecl).next
      (functionBody_resolved · hbody)
    refine ⟨Stmt.refsOf g.body, ?_, hitem.congr ?_ rfl⟩
    · simp [Item.refs]
    · simp [Outline.Item.marks, Outline.Body.marks, marks_signature]
  | @global d v init st value hdecl hvalue =>
    have hitem := declaration_resolved hr hdecl
    -- the value is a constant, which names nothing
    have hrefs : Expr.refs? init = [] := by
      cases init with
      | none => rfl
      | some e =>
        unfold constant at hvalue
        dsimp only at hvalue
        split at hvalue
        · rename_i hconst
          exact refs_of_constant? e hconst
        · cases hvalue
    refine ⟨[], ?_, hitem.congr rfl hrefs.symm⟩
    simp [Item.refs]

/-- **A run over items resolves every name.** -/
theorem items_resolved {is : List Outline.Item} {found found' : Found} {t : List Mark}
    (hr : Reflects found.env.scope found.env.symbols t) (hdepth : depth t = 0)
    (h : items found is = .ok found') :
    ∃ refs, found'.items.flatMap Item.refs = found.items.flatMap Item.refs ++ refs ∧
      Resolved found.env found'.env t (Outline.marksOf is) refs := by
  induction is generalizing found t with
  | nil =>
    cases h
    exact ⟨[], (List.append_nil _).symm, .start hr⟩
  | cons i is ih =>
    obtain ⟨found₁, hi, h⟩ := bind_eq_ok.1 h
    obtain ⟨refs, hrefs, hitem⟩ := (itemChecked_of_item hi).resolved hr hdepth
    have hdepth' : depth (t ++ i.marks) = 0 := by
      rw [depth_append, hdepth, hitem.balanced]
      rfl
    obtain ⟨refs', hrefs', hitems⟩ := ih hitem.after hdepth' h
    refine ⟨refs ++ refs', ?_, hitem.next fun _ => hitems⟩
    rw [hrefs', hrefs, List.append_assoc]

end Check

/-! ## §7. Programs -/

/-- **The names of a program are resolved lexically** in a text `t`. -/
structure Program.Lexical (p : Program) (t : List Mark) : Prop where
  /-- The names in the text and the references in the tree go together in
  order, and each name refers to what its innermost visible declaration stands
  for. -/
  resolved : List.Forall₂ (Refers p.symbols) (occurrencesFrom [] t) p.refs
  /-- A name that a block declares twice is a function, declared again. -/
  distinct : Distinct t
  /-- The variables of the table are those that the text declares, in order. -/
  vars : p.symbols.vars.rows.toList.map (fun sym => (sym.name, sym.line)) =
    t.filterMap Mark.varDecl?
  /-- No two functions share a name. -/
  funcs : ∀ {f g : FuncId} {sym sym' : FuncSymbol}, p.symbols.func? f = some sym →
    p.symbols.func? g = some sym' → sym.name = sym'.name → f = g

/-- **Name resolution is lexical.** -/
theorem lexical_of_parse {text : String} {p : Program} (h : parse text = .ok p) :
    words (marks text) = kinds (Scan.tokens text).list ∧ p.Lexical (marks text) := by
  refine ⟨words_marks h, ?_⟩
  obtain ⟨found, hitems, h⟩ := bind_eq_ok.1 h
  obtain ⟨_, _, h⟩ := bind_eq_ok.1 h
  cases h
  obtain ⟨refs, hrefs, hresolved⟩ := Check.items_resolved .empty rfl hitems
  have hok := (Check.items_step Check.Found.ok_empty hitems).ok
  exact {
    resolved := by
      show List.Forall₂ _ _ (found.items.flatMap Item.refs)
      rw [hrefs]
      exact hresolved.occurrences
    distinct := hresolved.after.distinct
    vars := hresolved.after.vars
    funcs := hok.scope.unique }

/-! ## §8. A program -/

/-- The marks of the head of the program's function. -/
def hidingHead : List Mark :=
  [.word (.keyword .kwInt), .word (.identifier "f"), .word (.punct .lparen),
    .word (.keyword .kwInt), .word (.identifier "a"), .word (.punct .rparen), .funcDecl "f"]

/-- The marks of its body. -/
def hidingBody : List Mark :=
  [.opens, .varDecl "a" 1, .word (.punct .lbrace),
    .word (.keyword .kwWhile), .word (.punct .lparen), .varUse "a", .word (.identifier "a"),
    .word (.punct .rparen), .opens, .word (.punct .lbrace),
    .word (.keyword .kwInt), .word (.identifier "x"), .word (.punct .eq), .varUse "a",
    .word (.identifier "a"), .word (.punct .semicolon), .varDecl "x" 1,
    .varUse "a", .word (.identifier "a"), .word (.punct .eq), .varUse "x", .word (.identifier "x"),
    .word (.punct .semicolon), .word (.punct .rbrace), .closes,
    .word (.keyword .kwReturn), .varUse "x", .word (.identifier "x"), .word (.punct .semicolon),
    .word (.punct .rbrace), .closes]

/-- The marks of the program, in which the head stands twice. -/
def hidingMarks : List Mark :=
  .word (.keyword .kwInt) :: .word (.identifier "x") :: .word (.punct .semicolon) ::
    .varDecl "x" 1 :: (hidingHead ++ .word (.punct .semicolon) :: (hidingHead ++ hidingBody))

set_option maxRecDepth 10000 in
theorem marks_hidingText : marks hidingText = hidingMarks := by
  rw [marks, tokens_hidingText]
  cbv

/-- In the loop `x` is the variable of the loop, after it the global. -/
theorem lexical_of_parse_hiding :
    parse hidingText = .ok hidingProgram ∧
      (occurrencesFrom [] (marks hidingText)).map (·.name) = ["a", "a", "a", "x", "x"] ∧
      hidingProgram.refs = [.var ⟨1⟩, .var ⟨1⟩, .var ⟨1⟩, .var ⟨2⟩, .var ⟨0⟩] ∧
      hidingProgram.Lexical (marks hidingText) := by
  refine ⟨parse_hidingText, ?_, rfl, (lexical_of_parse parse_hidingText).2⟩
  rw [marks_hidingText]
  rfl

/-- The head of the function stands twice outside all blocks. -/
theorem repeated_head_of_parse :
    parse hidingText = .ok hidingProgram ∧
      ¬ ∀ (i j : Nat) (x : String),
        Visible ((marks hidingText).take j) x i (depth ((marks hidingText).take j)) →
          ¬ DeclaresAt (marks hidingText) j x := by
  refine ⟨parse_hidingText, fun hnone => ?_⟩
  rw [marks_hidingText] at hnone
  refine hnone 10 18 "f" ⟨⟨.funcDecl "f", rfl, rfl⟩, ?_, rfl⟩ ⟨.funcDecl "f", rfl, rfl⟩
  intro k hk hk'
  have hk' : k ≤ 18 := hk'
  interval_cases k <;> decide

end MiniC
