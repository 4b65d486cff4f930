/-
  MiniC.Proofs.Reparsing.Words

  **A checked expression in words.**

  An expression is put into words with every operand of an operator in
  parentheses and every cast written out, those that the source left unsaid
  included (`Expr.words`).  Not every tree has such words: its literals and
  names have to be words of the language, a cast has to lead to a type that can
  be named, and in scope each name has to mean what it stands for in the tree
  (`Expr.Printable`).

  An expression that was read from a text and checked has all this
  (`printable_of_run`).  Literals and names are those of the text, and casts are
  those of the text or lead to a float.
-/
import MiniC.Proofs.Checking.Whole
import MiniC.Proofs.Naming.Coherence
import MiniC.Proofs.Scanning.Lexemes

namespace MiniC

open Outline (unaryPunct? binaryPunct)

/-! ## §1. Words -/

/-- The word for a constant. -/
def Literal.kind : Literal → Kind
  | .int n => .integer n
  | .float x => .float x

/-- What a variable is called. -/
def Symbols.varName (Γ : Symbols) (v : VarId) : String := (Γ.var? v).elim "" (·.name)

/-- What a function is called. -/
def Symbols.funcName (Γ : Symbols) (f : FuncId) : String := (Γ.func? f).elim "" (·.name)

theorem Symbols.varName_eq {Γ : Symbols} {v : VarId} {sym : VarSymbol} (h : Γ.var? v = some sym) :
    Γ.varName v = sym.name := by
  rw [varName, h]
  rfl

theorem Symbols.funcName_eq {Γ : Symbols} {f : FuncId} {sym : FuncSymbol}
    (h : Γ.func? f = some sym) : Γ.funcName f = sym.name := by
  rw [funcName, h]
  rfl

/-- Words in parentheses. -/
def inParens (ks : List Kind) : List Kind := .punct .lparen :: (ks ++ [Kind.punct .rparen])

/-- The words of an operator in front of its operand; a cast names the type of
its node. -/
def UnaryOp.words (op : UnaryOp) (ty : Ty) : List Kind :=
  match unaryPunct? op with
  | some p => [.punct p]
  | none => inParens ty.words

mutual

/-- The words of an expression, with the names that the table has. -/
def Expr.words (Γ : Symbols) : Expr → List Kind
  | .literal value _ _ => [value.kind]
  | .var v _ _ => [.identifier (Γ.varName v)]
  | .call f args _ _ => .identifier (Γ.funcName f) :: inParens (Expr.argWords Γ args)
  | .unary op e ty _ => op.words ty ++ inParens (e.words Γ)
  | .binary op l r _ _ => inParens (l.words Γ) ++ .punct (binaryPunct op) :: inParens (r.words Γ)

/-- The words of arguments, with the commas between them. -/
def Expr.argWords (Γ : Symbols) : List Expr → List Kind
  | [] => []
  | [e] => e.words Γ
  | e :: e' :: es => e.words Γ ++ .punct .comma :: Expr.argWords Γ (e' :: es)

end

/-- The type has a name: it is not an array and has none in it. -/
def Ty.isNamed : Ty → Bool
  | .pointer base => base.isNamed
  | .array .. => false
  | _ => true

theorem Ty.isArray_of_isNamed {ty : Ty} (h : ty.isNamed = true) : ty.isArray = false := by
  cases ty with
  | array base n => cases h
  | _ => rfl

/-- The token can be written. -/
def Kind.Writable (k : Kind) : Prop := ∃ word, Scan.Writes k word

/-- The words of a type can be written. -/
theorem Ty.writable_words (ty : Ty) : ∀ k ∈ ty.words, k.Writable := by
  induction ty with
  | int | float | void => exact List.forall_mem_singleton.2 ⟨_, .keyword _⟩
  | pointer base ih =>
    intro k hk
    rcases List.mem_append.1 hk with hk | hk
    · exact ih k hk
    · rw [List.mem_singleton.1 hk]
      exact ⟨_, .punct .star⟩
  | array base n ih => exact ih

/-! ## §2. Expressions that have words -/

/-- Every word of the expression can be written, and in scope the names mean
what they stand for. -/
inductive Expr.Printable (env : Check.Env) : Expr → Prop where
  | literal {value : Literal} {ty : Ty} {line : Nat} (hw : value.kind.Writable) :
      Printable env (.literal value ty line)
  | var {v : VarId} {sym : VarSymbol} {ty : Ty} {line : Nat}
      (hv : env.symbols.var? v = some sym) (hname : env.scope.get? sym.name = some (.var v))
      (hw : (Kind.identifier sym.name).Writable) : Printable env (.var v ty line)
  | call {f : FuncId} {sym : FuncSymbol} {args : List Expr} {ty : Ty} {line : Nat}
      (hf : env.symbols.func? f = some sym) (hname : env.scope.get? sym.name = some (.func f))
      (hw : (Kind.identifier sym.name).Writable) (hargs : ∀ a ∈ args, Printable env a) :
      Printable env (.call f args ty line)
  | unary {op : UnaryOp} {e : Expr} {ty : Ty} {line : Nat}
      (hcast : op = .cast → ty.isNamed = true) (he : Printable env e) :
      Printable env (.unary op e ty line)
  | binary {op : BinaryOp} {l r : Expr} {ty : Ty} {line : Nat} (hl : Printable env l)
      (hr : Printable env r) : Printable env (.binary op l r ty line)

section Writable

variable {env : Check.Env}

theorem writable_punct (p : Punct) : (Kind.punct p).Writable := ⟨_, .punct p⟩

theorem writable_inParens {ks : List Kind} (h : ∀ k ∈ ks, k.Writable) :
    ∀ k ∈ inParens ks, k.Writable := by
  refine List.forall_mem_cons.2 ⟨writable_punct _, List.forall_mem_append.2 ⟨h, ?_⟩⟩
  exact List.forall_mem_singleton.2 (writable_punct _)

theorem UnaryOp.writable_words (op : UnaryOp) (ty : Ty) : ∀ k ∈ op.words ty, k.Writable := by
  unfold UnaryOp.words
  split
  · exact List.forall_mem_singleton.2 (writable_punct _)
  · exact writable_inParens ty.writable_words

mutual

/-- The words of a printable expression can be written. -/
theorem Expr.Printable.writable : (e : Expr) → e.Printable env →
    ∀ k ∈ e.words env.symbols, k.Writable
  | .literal value ty line, h => by
    cases h with
    | literal hw => exact List.forall_mem_singleton.2 hw
  | .var v ty line, h => by
    cases h with
    | var hv _ hw =>
      refine List.forall_mem_singleton.2 ?_
      rw [Symbols.varName_eq hv]
      exact hw
  | .call f args ty line, h => by
    cases h with
    | call hf _ hw hargs =>
      rw [← Symbols.funcName_eq hf] at hw
      exact List.forall_mem_cons.2
        ⟨hw, writable_inParens (Expr.Printable.writable_args args hargs)⟩
  | .unary op e ty line, h => by
    cases h with
    | unary _ he =>
      have he := Expr.Printable.writable e he
      exact List.forall_mem_append.2 ⟨op.writable_words ty, writable_inParens he⟩
  | .binary op l r ty line, h => by
    cases h with
    | binary hl hr =>
      have hl := Expr.Printable.writable l hl
      have hr := Expr.Printable.writable r hr
      refine List.forall_mem_append.2 ⟨writable_inParens hl, ?_⟩
      exact List.forall_mem_cons.2 ⟨writable_punct _, writable_inParens hr⟩

/-- The words of printable arguments can be written. -/
theorem Expr.Printable.writable_args : (args : List Expr) → (∀ a ∈ args, a.Printable env) →
    ∀ k ∈ Expr.argWords env.symbols args, k.Writable
  | [], _ => List.forall_mem_nil _
  | [e], h => Expr.Printable.writable e (h e List.mem_cons_self)
  | e :: e' :: es, h => by
    obtain ⟨he, hes⟩ := List.forall_mem_cons.1 h
    refine List.forall_mem_append.2 ⟨Expr.Printable.writable e he, ?_⟩
    exact List.forall_mem_cons.2
      ⟨writable_punct _, Expr.Printable.writable_args (e' :: es) hes⟩

end

end Writable

/-! ## §3. Casts that were read -/

namespace Outline

variable {ty : Ty}

mutual

/-- Every cast in the element names a type. -/
def Node.castsNamed : Node → Bool
  | .call _ _ args => args.castsNamed
  | .group inner => inner.castsNamed
  | .unary .cast target _ => target.any Ty.isNamed
  | _ => true

/-- Every cast in the expression names a type. -/
def Run.castsNamed : Run → Bool
  | .last n => n.castsNamed
  | .more n rest => n.castsNamed && rest.castsNamed

/-- Every cast in the arguments names a type. -/
def Args.castsNamed : Args → Bool
  | .none => true
  | .arg e rest => e.castsNamed && rest.castsNamed

end

/-- Stars keep a type one that has a name. -/
theorem isNamed_readStars (h : ty.isNamed = true) (ts : List Token) :
    (readStars ty ts).1.isNamed = true := by
  induction ts generalizing ty with
  | nil => exact h
  | cons t ts ih =>
    unfold readStars
    split
    · have hpointer : (Ty.pointer ty).isNamed = true := h
      exact ih hpointer
    · exact h

/-- A type that was read has one. -/
theorem isNamed_of_readTy {last : Nat} {ts : List Token} {rest : Left ts.length}
    (h : readTy last ts = .ok (ty, rest)) : ty.isNamed = true := by
  unfold readTy at h
  split at h
  · cases h
  · split at h
    · rename_i base hbase
      cases h
      apply isNamed_readStars
      unfold baseTy? at hbase
      split at hbase <;> cases hbase <;> rfl
    · cases h

/-- The type of a cast that was read has a name. -/
theorem isNamed_of_readCast {last : Nat} {ts : List Token} {rest : Left ts.length}
    (h : readCast last ts = .ok (ty, rest)) : ty.isNamed = true := by
  obtain ⟨⟨ty', rest'⟩, hty, h⟩ := bind_eq_ok.1 h
  obtain ⟨_, _, h⟩ := bind_eq_ok.1 h
  cases h
  exact isNamed_of_readTy hty

theorem castsNamed_of_operator? {ob : Bool} {p : Punct} {line : Nat} {n : Node}
    (h : operator? ob p line = some n) : n.castsNamed = true := by
  cases p <;> cases ob <;> cases h <;> rfl

/-! **A cast that was read names a type.** -/

variable {last : Nat}

mutual

/-- All casts in an operand that was read name a type. -/
theorem NodeRead.castsNamed {ob : Bool} {t : Token} {ts : List Token} {n : Node}
    {rest : Option (List Token)} : NodeRead last ob t ts n rest → n.castsNamed = true
  | .int _ | .float _ | .name .. => rfl
  | .call _ hargs => hargs.castsNamed
  -- the one case in which a cast is read
  | .cast _ _ hcast => isNamed_of_readCast hcast
  | .group _ _ hrun => hrun.castsNamed
  | .operator _ _ hop => castsNamed_of_operator? hop
  | .badCast .. | .noOperator .. | .unexpected .. => rfl

/-- All casts in a run that was read name a type. -/
theorem RunRead.castsNamed {stop : Stop} {ob : Bool} {ts : List Token} {e : Run}
    {rest : Option (Token × List Token)} : RunRead last stop ob ts e rest → e.castsNamed = true
  | .nil | .atStop _ => rfl
  | .broken _ hnode => hnode.castsNamed
  | .unended _ hnode => Bool.and_eq_true_iff.2 ⟨hnode.castsNamed, rfl⟩
  | .last _ hnode _ => hnode.castsNamed
  | .more _ hnode _ hrun => Bool.and_eq_true_iff.2 ⟨hnode.castsNamed, hrun.castsNamed⟩

theorem ArgsRead.castsNamed {ts : List Token} {args : Args} {rest : Option (List Token)} :
    ArgsRead last ts args rest → args.castsNamed = true
  | .none => rfl
  | .some _ hmore => hmore.castsNamed

theorem MoreArgsRead.castsNamed {ts : List Token} {args : Args} {rest : Option (List Token)} :
    MoreArgsRead last ts args rest → args.castsNamed = true
  | .broken hrun => Bool.and_eq_true_iff.2 ⟨hrun.castsNamed, rfl⟩
  | .comma hrun _ hmore => Bool.and_eq_true_iff.2 ⟨hrun.castsNamed, hmore.castsNamed⟩
  | .last hrun _ => Bool.and_eq_true_iff.2 ⟨hrun.castsNamed, rfl⟩

end

end Outline

/-! ## §4. Typing keeps what can be printed -/

section Typing

variable {env : Check.Env}
variable {e e' : Expr} {line : Nat}

/-- An array stays printable whatever type its root is taken as. -/
theorem Expr.Printable.retype (h : e.Printable env) (ha : e.ty.isArray = true) (ty : Ty) :
    (e.retype ty).Printable env := by
  cases h with
  | literal hw => exact .literal hw
  | var hv hname hw => exact .var hv hname hw
  | call hf hname hw hargs => exact .call hf hname hw hargs
  | @unary op e ty' line hcast he =>
    refine .unary (fun hop => ?_) he
    -- the type of a cast has a name, but that of an array has none
    have hnamed := hcast hop
    have ha : ty'.isArray = true := ha
    cases ty' with
    | array base n => cases hnamed
    | _ => cases ha
  | binary hl hr => exact .binary hl hr

theorem Expr.Printable.implicitCast (h : e.Printable env) :
    (Typing.implicitCast e .float).Printable env :=
  .unary (fun _ => rfl) h

/-- A conversion keeps an expression printable. -/
theorem Expr.Printable.converted (h : e.Printable env) (hconv : Typing.Converts e e') :
    e'.Printable env := by
  cases hconv with
  | same => exact h
  | cast => exact h.implicitCast
  | decay ha => exact h.retype ha _

theorem Expr.Printable.coerce {ty : Ty} (h : e.Printable env) (hco : Typing.coerce e ty = .ok e') :
    e'.Printable env :=
  h.converted (Typing.converts_of_coerce hco)

theorem Expr.Printable.ofBinary {op : BinaryOp} {l r : Expr} (hl : l.Printable env)
    (hr : r.Printable env) (h : Typing.binary op l r line = .ok e) : e.Printable env := by
  obtain ⟨l', r', ty, rfl, hl', hr'⟩ := Typing.converts_of_binary h
  exact .binary (hl.converted hl') (hr.converted hr')

/-- A unary operator keeps an expression printable. -/
theorem Expr.Printable.ofUnary {op : UnaryOp} {target : Option Ty} (he : e.Printable env)
    (hcast : op = .cast → target.any Ty.isNamed = true)
    (h : Typing.unary op target e line = .ok e') : e'.Printable env := by
  obtain ⟨ty, hty, h⟩ := bind_eq_ok.1 h
  cases h
  refine .unary (fun hop => ?_) he
  subst hop
  obtain ⟨ty', rfl, hnamed⟩ := (Option.any_eq_true _ _).1 (hcast rfl)
  unfold Typing.unaryTy at hty
  dsimp only at hty
  split at hty <;> cases hty
  exact hnamed

/-- A part of a run can be printed. -/
def Part.Printable (env : Check.Env) : Part Expr → Prop
  | .operand e _ => e.Printable env
  | .unary op target _ => op = .cast → target.any Ty.isNamed = true
  | .binary .. => True

/-- A tree can be printed if its parts can. -/
theorem printable_of_finish {t : Tree Expr} (hparts : ∀ p ∈ t.reading, p.Printable env)
    (h : Precedence.finish line t = .ok e) : e.Printable env := by
  induction t generalizing line e with
  | hole => cases h
  | operand a line' =>
    cases h
    exact hparts _ (List.mem_singleton_self _)
  | unary op target line' arg ih =>
    obtain ⟨a, harg, h⟩ := bind_eq_ok.1 h
    obtain ⟨hop, hparts⟩ := List.forall_mem_cons.1 hparts
    exact (ih hparts harg).ofUnary hop (typed_eq_ok h)
  | binary op line' left right ihl ihr =>
    obtain ⟨a, hleft, h⟩ := bind_eq_ok.1 h
    obtain ⟨b, hright, h⟩ := bind_eq_ok.1 h
    obtain ⟨hl, hr⟩ := List.forall_mem_append.1 hparts
    obtain ⟨_, hr⟩ := List.forall_mem_cons.1 hr
    exact (ihl hl hleft).ofBinary (ihr hr hright) (typed_eq_ok h)

theorem printable_of_resolve {ps : List (Part Expr)} (hparts : ∀ p ∈ ps, p.Printable env)
    (h : Precedence.resolve ps = .ok e) : e.Printable env := by
  obtain ⟨t, _, hf, _, rfl⟩ := Precedence.collapse_of_resolve h
  exact printable_of_finish hparts hf

end Typing

/-! ## §5. What was checked can be printed -/

/-- Those of the words that are valid can be written. -/
def WritableWords (ms : List Mark) : Prop := ∀ k ∈ words ms, k.isValid = true → k.Writable

theorem WritableWords.mono {ms ms' : List Mark} (h : WritableWords ms)
    (hsub : words ms' ⊆ words ms) : WritableWords ms' :=
  fun k hk => h k (hsub hk)

theorem WritableWords.of_append {ms ms' : List Mark} (h : WritableWords (ms ++ ms')) :
    WritableWords ms ∧ WritableWords ms' := by
  rw [WritableWords, words_append] at h
  exact List.forall_mem_append.1 h

/-- The words of an argument and of those after it are words of them all. -/
theorem WritableWords.of_arg {e : Outline.Run} {rest : Outline.Args}
    (h : WritableWords (Outline.Args.arg e rest).marks) :
    WritableWords e.marks ∧ WritableWords rest.marks := by
  cases rest with
  | none =>
    rw [Outline.Args.marks] at h
    exact ⟨h, nofun⟩
  | arg e' rest =>
    rw [Outline.Args.marks] at h
    obtain ⟨he, hrest⟩ := h.of_append
    exact ⟨he, hrest.mono (List.subset_cons_self _ _)⟩

namespace Check

variable {env : Env}

theorem Env.Coherent.of_get? (h : env.Coherent) {x : String} {b : Binding}
    (hb : env.scope.get? x = some b) : env.symbols.Calls x b :=
  h.named (Scope.mem_of_get? hb)

mutual

/-- An operand that was checked is printable. -/
theorem node_printable (henv : env.Coherent) : (n : Outline.Node) → {p : Part Expr} →
    WritableWords n.marks → n.castsNamed = true → node env n = .ok p → p.Printable env
  | .int n line, p, hw, _, h => by
    cases h
    exact .literal (hw _ List.mem_cons_self rfl)
  | .float x line, p, hw, _, h => by
    cases h
    exact .literal (hw _ List.mem_cons_self rfl)
  | .name x line, p, hw, _, h => by
    obtain ⟨⟨v, sym⟩, hv, h⟩ := bind_eq_ok.1 h
    cases h
    obtain ⟨hs, hsym⟩ := Env.var_eq_ok hv
    -- the name in the text is the one that the table has
    obtain ⟨sym', hsym', rfl⟩ := henv.of_get? hs
    cases hsym.symm.trans hsym'
    exact .var hsym hs (hw _ List.mem_cons_self rfl)
  | .call f line args, p, hw, hcasts, h => by
    obtain ⟨⟨f, sym⟩, hf, h⟩ := bind_eq_ok.1 h
    obtain ⟨as, has, h⟩ := bind_eq_ok.1 h
    cases h
    obtain ⟨hs, hsym⟩ := Env.func_eq_ok hf
    obtain ⟨sym', hsym', rfl⟩ := henv.of_get? hs
    cases hsym.symm.trans hsym'
    rw [Outline.Node.marks] at hw
    have hargs : WritableWords (args.marks ++ [Outline.punct .rparen]) :=
      hw.mono fun _ hk => List.mem_cons_of_mem _ (List.mem_cons_of_mem _ hk)
    exact .call hsym hs (hw _ List.mem_cons_self rfl)
      (arguments_printable henv args hargs.of_append.1 hcasts has)
  | .group inner, p, hw, hcasts, h => by
    obtain ⟨ps, hps, h⟩ := bind_eq_ok.1 h
    obtain ⟨e, he, h⟩ := bind_eq_ok.1 h
    cases h
    rw [Outline.Node.marks] at hw
    have hinner : WritableWords (inner.marks ++ [Outline.punct .rparen]) :=
      hw.mono fun _ hk => List.mem_cons_of_mem _ hk
    exact printable_of_resolve (parts_printable henv inner hinner.of_append.1 hcasts hps) he
  | .unary op target line, p, _, hcasts, h => by
    cases h
    rintro rfl
    exact hcasts
  | .binary op line, p, _, _, h => by
    cases h
    trivial
  | .broken f, p, _, _, h => by cases h

/-- The parts of a checked run are printable. -/
theorem parts_printable (henv : env.Coherent) : (r : Outline.Run) → {ps : List (Part Expr)} →
    WritableWords r.marks → r.castsNamed = true → parts env r = .ok ps → ∀ p ∈ ps, p.Printable env
  | .last n, ps, hw, hcasts, h => by
    obtain ⟨p, hp, h⟩ := bind_eq_ok.1 h
    cases h
    exact List.forall_mem_singleton.2 (node_printable henv n hw hcasts hp)
  | .more n rest, ps, hw, hcasts, h => by
    obtain ⟨p, hp, h⟩ := bind_eq_ok.1 h
    obtain ⟨ps, hps, h⟩ := bind_eq_ok.1 h
    cases h
    obtain ⟨hwn, hwrest⟩ := WritableWords.of_append hw
    obtain ⟨hn, hrest⟩ := Bool.and_eq_true_iff.1 hcasts
    exact List.forall_mem_cons.2
      ⟨node_printable henv n hwn hn hp, parts_printable henv rest hwrest hrest hps⟩

/-- Checked arguments are printable. -/
theorem arguments_printable (henv : env.Coherent) {line : Nat} : (args : Outline.Args) →
    {params : List Ty} → {es : List Expr} → WritableWords args.marks → args.castsNamed = true →
    arguments env line params args = .ok es → ∀ e ∈ es, e.Printable env
  | .none, [], es, _, _, h => by
    cases h
    exact List.forall_mem_nil _
  | .none, _ :: _, es, _, _, h => by cases h
  | .arg r rest, [], es, _, _, h => by cases h
  | .arg r rest, ty :: params, es, hw, hcasts, h => by
    obtain ⟨ps, hps, h⟩ := bind_eq_ok.1 h
    obtain ⟨e, he, h⟩ := bind_eq_ok.1 h
    obtain ⟨e', he', h⟩ := bind_eq_ok.1 h
    obtain ⟨es, hes, h⟩ := bind_eq_ok.1 h
    cases h
    obtain ⟨hwr, hwrest⟩ := hw.of_arg
    obtain ⟨hr, hrest⟩ := Bool.and_eq_true_iff.1 hcasts
    have he := printable_of_resolve (parts_printable henv r hwr hr hps) he
    exact List.forall_mem_cons.2
      ⟨he.coerce (typed_eq_ok he'), arguments_printable henv rest hwrest hrest hes⟩

end

/-- **A checked expression can be printed**, if its words can be written. -/
theorem printable_of_run (henv : env.Coherent) {r : Outline.Run} {e : Expr}
    (hw : WritableWords r.marks) (hcasts : r.castsNamed = true) (h : run env r = .ok e) :
    e.Printable env := by
  obtain ⟨ps, hps, h⟩ := bind_eq_ok.1 h
  exact printable_of_resolve (parts_printable henv r hw hcasts hps) h

end Check

/-! ## §6. Texts -/

namespace Scan

/-- A valid token that was scanned can be written. -/
theorem writable_of_scan {p : Place} (hne : (scan p).1.kind ≠ .endOfFile)
    (hvalid : (scan p).1.kind.isValid = true) : (scan p).1.kind.Writable := by
  obtain ⟨gap, word, _, _, hword⟩ := exists_slice p
  exact hword.exists_writes hvalid hne

/-- Every valid token of a text can be written. -/
theorem writable_of_mem {p : Place} {t : Token} (h : t ∈ (tokensFrom p).list)
    (hvalid : t.kind.isValid = true) : t.kind.Writable := by
  obtain ⟨q, rfl, hne⟩ := exists_scan_of_mem h
  exact writable_of_scan hne hvalid

/-- Words that can be written make a text, with a blank after each, and what
follows. -/
theorem exists_printed {more : Text.Cursor} (hmore : begins (· = '.') more = false)
    {ks : List Kind} (h : ∀ k ∈ ks, k.Writable) : ∃ text, Printed more ks text := by
  induction ks with
  | nil => exact ⟨more, .nil hmore⟩
  | cons k ks ih =>
    obtain ⟨⟨word, hword⟩, hks⟩ := List.forall_mem_cons.1 h
    obtain ⟨text, htext⟩ := ih hks
    have hgap : ∀ c ∈ [' '], isWhite c = true := List.forall_mem_singleton.2 rfl
    exact ⟨word ++ ([' '] ++ text), .apart hword (List.cons_ne_nil ' ' []) hgap htext⟩

end Scan

end MiniC
