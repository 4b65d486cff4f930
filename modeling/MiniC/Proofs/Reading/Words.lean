/-
  MiniC.Proofs.Reading.Words

  **An outline is the text, with its structure.**

  The marks of an outline are the words it was read from, in order, and among
  them notes on what they mean: where a block begins and ends, where a name
  is declared, and where one is used (`Mark`).

  What was read is either whole, and then its words are the tokens that were
  taken, or has a broken leaf, and then its names are at least among the
  tokens (`Took`).  The proof follows the recursion of the reading functions.
-/
import MiniC.Proofs.Reading.Equations
import MiniC.Proofs.Reading.Relations
import MiniC.Proofs.Precedence.Collapsing

namespace MiniC

/-! ## §1. Marks -/

/-- A word of a text, or a note between two words. -/
inductive Mark where
  /-- A word. -/
  | word (k : Kind)
  /-- A block begins. -/
  | opens
  /-- The block ends. -/
  | closes
  /-- The declaration of a variable, named on a line, ends. -/
  | varDecl (name : String) (line : Nat)
  /-- The head of a function ends. -/
  | funcDecl (name : String)
  /-- The next word is the name of a variable. -/
  | varUse (name : String)
  /-- The next word is the name of a function that is called. -/
  | funcUse (name : String)
  deriving DecidableEq, Repr

/-- The word, if it is one. -/
def Mark.word? : Mark → Option Kind
  | .word k => some k
  | _ => none

/-- The words among marks. -/
def words (ms : List Mark) : List Kind := ms.filterMap Mark.word?

/-- The words that tokens are. -/
def kinds (ts : List Token) : List Kind := ts.map (·.kind)

@[simp] theorem words_nil : words [] = [] := rfl

@[simp] theorem words_append (a b : List Mark) : words (a ++ b) = words a ++ words b :=
  List.filterMap_append

@[simp] theorem words_word (k : Kind) (ms : List Mark) :
    words (.word k :: ms) = k :: words ms := rfl

@[simp] theorem words_opens (ms : List Mark) : words (.opens :: ms) = words ms := rfl

@[simp] theorem words_closes (ms : List Mark) : words (.closes :: ms) = words ms := rfl

@[simp] theorem words_varDecl (x : String) (line : Nat) (ms : List Mark) :
    words (.varDecl x line :: ms) = words ms := rfl

@[simp] theorem words_funcDecl (f : String) (ms : List Mark) :
    words (.funcDecl f :: ms) = words ms := rfl

@[simp] theorem words_varUse (x : String) (ms : List Mark) :
    words (.varUse x :: ms) = words ms := rfl

@[simp] theorem words_funcUse (f : String) (ms : List Mark) :
    words (.funcUse f :: ms) = words ms := rfl

@[simp] theorem words_map_word (ks : List Kind) : words (ks.map .word) = ks := by
  induction ks with
  | nil => rfl
  | cons k ks ih => rw [List.map_cons, words_word, ih]

@[simp] theorem kinds_cons (t : Token) (ts : List Token) : kinds (t :: ts) = t.kind :: kinds ts :=
  rfl

/-- The words that a type is written with. -/
def Ty.words : Ty → List Kind
  | .void => [.keyword .kwVoid]
  | .int => [.keyword .kwInt]
  | .float => [.keyword .kwFloat]
  | .pointer base => base.words ++ [Kind.punct .star]
  | .array base _ => base.words

namespace Outline

variable {last : Nat} {p : Punct} {ts : List Token} {ty : Ty}

/-- A piece of punctuation as a mark. -/
abbrev punct (p : Punct) : Mark := .word (.punct p)

/-- A reserved word as a mark. -/
abbrev keyword (k : Keyword) : Mark := .word (.keyword k)

/-- A name as a mark. -/
abbrev ident (x : String) : Mark := .word (.identifier x)

/-- How an operator in front of an operand is written, if it has a sign. -/
def unaryPunct? : UnaryOp → Option Punct
  | .negate => some .minus
  | .not => some .bang
  | .addressOf => some .amp
  | .deref => some .star
  | .cast => none

/-- How an operator between two operands is written. -/
def binaryPunct : BinaryOp → Punct
  | .assign => .eq
  | .arith .add => .plus
  | .arith .sub => .minus
  | .arith .mul => .star
  | .arith .div => .slash
  | .compare .eq => .eqEq
  | .compare .notEq => .bangEq
  | .compare .lt => .lt
  | .compare .gt => .gt
  | .compare .ltEq => .ltEq
  | .compare .gtEq => .gtEq
  | .logical .and => .ampAmp
  | .logical .or => .pipePipe
  | .bitwise .and => .amp
  | .bitwise .or => .pipe

mutual

/-- The marks of an element. -/
def Node.marks : Node → List Mark
  | .int n _ => [.word (.integer n)]
  | .float x _ => [.word (.float x)]
  | .name x _ => [.varUse x, ident x]
  | .call f _ args => .funcUse f :: ident f :: punct .lparen :: (args.marks ++ [punct .rparen])
  | .group inner => punct .lparen :: (inner.marks ++ [punct .rparen])
  | .unary op none _ => (unaryPunct? op).toList.map punct
  | .unary _ (some ty) _ => punct .lparen :: (ty.words.map .word ++ [punct .rparen])
  | .binary op _ => [punct (binaryPunct op)]
  | .broken _ => []

/-- The marks of an expression. -/
def Run.marks : Run → List Mark
  | .last n => n.marks
  | .more n rest => n.marks ++ rest.marks

/-- The marks of arguments, with the commas between them. -/
def Args.marks : Args → List Mark
  | .none => []
  | .arg e .none => e.marks
  | .arg e (.arg e' rest) => e.marks ++ punct .comma :: (Args.arg e' rest).marks

end

/-- The marks of the lengths after a name. -/
def lengthMarks (rs : List Run) : List Mark :=
  rs.flatMap fun r => punct .lbracket :: (r.marks ++ [punct .rbracket])

/-- The marks of a first value, up to the semicolon. -/
def Initial.marks : Initial → List Mark
  | .none => [punct .semicolon]
  | .value e => punct .eq :: (e.marks ++ [punct .semicolon])
  | .broken _ => []

/-- The marks of a declaration.  The variable is declared at its end. -/
def Declaration.marks (d : Declaration) : List Mark :=
  d.base.words.map .word ++ ident d.name ::
    (lengthMarks d.lengths ++ (d.init.marks ++ [.varDecl d.name d.line]))

/-- The marks of a block with `entry` in front of its brace. -/
def block (entry body : List Mark) : List Mark :=
  .opens :: (entry ++ punct .lbrace :: (body ++ [punct .rbrace, .closes]))

mutual

/-- The marks of a statement. -/
def Stmt.marks : Stmt → List Mark
  | .declare d => d.marks
  | .expr e => e.marks ++ [punct .semicolon]
  | .ret _ => [keyword .kwReturn, punct .semicolon]
  | .retValue e => keyword .kwReturn :: (e.marks ++ [punct .semicolon])
  | .branch cond body otherwise =>
    keyword .kwIf :: punct .lparen :: (cond.marks ++ punct .rparen ::
      (block [] (Stmt.marksOf body) ++ otherwise.marks))
  | .loop cond body =>
    keyword .kwWhile :: punct .lparen :: (cond.marks ++ punct .rparen ::
      block [] (Stmt.marksOf body))
  | .leave _ _ => [keyword .kwBreak, punct .semicolon]
  | .again _ _ => [keyword .kwContinue, punct .semicolon]
  | .broken _ => []

/-- The marks of what follows the block of a test. -/
def Else.marks : Else → List Mark
  | .nothing => []
  | .branch cond body otherwise =>
    keyword .kwElse :: keyword .kwIf :: punct .lparen :: (cond.marks ++ punct .rparen ::
      (block [] (Stmt.marksOf body) ++ otherwise.marks))
  | .block body => keyword .kwElse :: block [] (Stmt.marksOf body)

/-- The marks of statements. -/
def Stmt.marksOf : List Stmt → List Mark
  | [] => []
  | s :: ss => s.marks ++ Stmt.marksOf ss

end

/-- The marks of a parameter in a head.  It is not declared there. -/
def Param.marks (p : Param) : List Mark := p.ty.words.map .word ++ [ident p.name]

/-- The marks of parameters, with the commas between them. -/
def paramMarks : List Param → List Mark
  | [] => []
  | [p] => p.marks
  | p :: p' :: ps => p.marks ++ punct .comma :: paramMarks (p' :: ps)

/-- The marks of the head of a function, which declares it. -/
def Signature.marks (sig : Signature) : List Mark :=
  sig.ret.words.map .word ++ ident sig.name :: punct .lparen ::
    (paramMarks sig.params ++ [punct .rparen, .funcDecl sig.name])

/-- The declarations of parameters. -/
def paramDecls (ps : List Param) : List Mark := ps.map fun p => .varDecl p.name p.line

/-- The marks of what follows the head of a function with parameters `ps`,
which are declared in the block of the body. -/
def Body.marks (ps : List Param) : Body → List Mark
  | .none => [punct .semicolon]
  | .block body => Outline.block (paramDecls ps) (Stmt.marksOf body)
  | .broken _ => []

/-- The marks of an item. -/
def Item.marks : Item → List Mark
  | .imported sig _ => keyword .kwExtern :: (sig.marks ++ [punct .semicolon])
  | .function sig body => sig.marks ++ body.marks sig.params
  | .global d => d.marks
  | .broken _ => []

/-- The marks of a program. -/
def marksOf (is : List Item) : List Mark := is.flatMap Item.marks

/-! ## §2. Whole outlines -/

mutual

/-- Reading did not end within the element. -/
def Node.whole : Node → Bool
  | .call _ _ args => args.whole
  | .group inner => inner.whole
  | .broken _ => false
  | _ => true

/-- Reading did not end within the expression. -/
def Run.whole : Run → Bool
  | .last n => n.whole
  | .more n rest => n.whole && rest.whole

/-- Reading did not end within the arguments. -/
def Args.whole : Args → Bool
  | .none => true
  | .arg e rest => e.whole && rest.whole

end

/-- Reading did not end within the first value. -/
def Initial.whole : Initial → Bool
  | .none => true
  | .value e => e.whole
  | .broken _ => false

/-- Reading did not end within the declaration. -/
def Declaration.whole (d : Declaration) : Bool := d.lengths.all Run.whole && d.init.whole

mutual

/-- Reading did not end within the statement. -/
def Stmt.whole : Stmt → Bool
  | .declare d => d.whole
  | .expr e | .retValue e => e.whole
  | .ret _ => true
  | .branch cond body otherwise => cond.whole && (Stmt.wholeAll body && otherwise.whole)
  | .loop cond body => cond.whole && Stmt.wholeAll body
  | .leave _ fault | .again _ fault => fault.isNone
  | .broken _ => false

/-- Reading did not end within what follows the block of a test. -/
def Else.whole : Else → Bool
  | .nothing => true
  | .branch cond body otherwise => cond.whole && (Stmt.wholeAll body && otherwise.whole)
  | .block body => Stmt.wholeAll body

/-- Reading did not end within the statements. -/
def Stmt.wholeAll : List Stmt → Bool
  | [] => true
  | s :: ss => s.whole && Stmt.wholeAll ss

end

/-- Reading did not end within the body. -/
def Body.whole : Body → Bool
  | .none => true
  | .block body => Stmt.wholeAll body
  | .broken _ => false

/-- Reading did not end within the item. -/
def Item.whole : Item → Bool
  | .imported sig fault => sig.fault.isNone && fault.isNone
  | .function sig body => sig.fault.isNone && body.whole
  | .global d => d.whole
  | .broken _ => false

/-! ## §3. What reading takes -/

/-- A phrase with these marks was read from the front of `ts`.  If something
is said to be left the phrase takes all before that; otherwise reading ended
within it, and the names in it are among the tokens. -/
def Took (ts : List Token) (ms : List Mark) (whole : Bool) : Option (List Token) → Prop
  | some rest => kinds ts = words ms ++ kinds rest
  | none => whole = false ∧ ∀ x, Kind.identifier x ∈ words ms → .identifier x ∈ kinds ts

namespace Took

variable {ts rest : List Token} {ms ms' : List Mark} {w w' : Bool} {rest? : Option (List Token)}

/-- Where reading ends at once nothing is taken. -/
theorem broken (ts : List Token) : Took ts [] false none :=
  ⟨rfl, nofun⟩

/-- Either way the names are among the tokens. -/
theorem names (h : Took ts ms w rest?) {x : String} (hx : Kind.identifier x ∈ words ms) :
    .identifier x ∈ kinds ts := by
  cases rest? with
  | none => exact h.2 x hx
  | some rest =>
    rw [show kinds ts = words ms ++ kinds rest from h]
    exact List.mem_append_left _ hx

/-- Only words and their order count. -/
theorem congr (h : Took ts ms w rest?) (hms : words ms' = words ms) (hw : w = false → w' = false) :
    Took ts ms' w' rest? := by
  cases rest? with
  | none =>
    refine ⟨hw h.1, ?_⟩
    rw [hms]
    exact h.2
  | some rest =>
    show kinds ts = words ms' ++ kinds rest
    rw [hms]
    exact h

/-- One word in front. -/
theorem cons {t : Token} {k : Kind} (hk : t.kind = k) (h : Took ts ms w rest?) :
    Took (t :: ts) (.word k :: ms) w rest? := by
  subst hk
  cases rest? with
  | none =>
    refine ⟨h.1, ?_⟩
    intro x hx
    rcases List.mem_cons.1 hx with hx | hx
    · exact List.mem_cons.2 (.inl hx)
    · exact List.mem_cons_of_mem _ (h.2 x hx)
  | some rest => exact congrArg (t.kind :: ·) h

/-- Words in front. -/
theorem after {front : List Kind} (hts : kinds ts = front ++ kinds rest)
    (h : Took rest ms w rest?) : Took ts (front.map .word ++ ms) w rest? := by
  cases rest? with
  | none =>
    refine ⟨h.1, ?_⟩
    intro x hx
    rw [hts]
    rw [words_append, words_map_word] at hx
    rcases List.mem_append.1 hx with hx | hx
    · exact List.mem_append_left _ hx
    · exact List.mem_append_right _ (h.2 x hx)
  | some rest' =>
    have h : kinds rest = words ms ++ kinds rest' := h
    show kinds ts = words (front.map .word ++ ms) ++ kinds rest'
    rw [hts, h, words_append, words_map_word, List.append_assoc]

/-- One phrase after another. -/
theorem append (h : Took ts ms w (some rest)) (h' : Took rest ms' w' rest?) :
    Took ts (ms ++ ms') (w && w') rest? := by
  have hts : kinds ts = words ms ++ kinds rest := h
  refine (after hts h').congr ?_ ?_
  · rw [words_append, words_append, words_map_word]
  · intro hw
    rw [hw, Bool.and_false]

/-- A phrase within which reading ended, in a phrase that names nothing
more. -/
theorem ended (h : Took ts ms w none) (hw : w = false → w' = false)
    (hms : ∀ x, Kind.identifier x ∈ words ms' → .identifier x ∈ words ms) :
    Took ts ms' w' none :=
  ⟨hw h.1, fun x hx => h.2 x (hms x hx)⟩

end Took

/-! ## §4. Single steps -/

/-- The sign that was met is the next word. -/
theorem kinds_of_expect {rest : Left ts.length} (h : expect last p ts = .ok rest) :
    kinds ts = .punct p :: kinds rest.1 := by
  unfold expect at h
  split at h
  · cases h
  · split at h
    · rename_i hk
      cases h
      exact congrArg (· :: _) hk
    · cases h

/-- The name that was read is the next word. -/
theorem kinds_of_readName {x : String} {line : Nat} {rest : Left ts.length}
    (h : readName last ts = .ok ((x, line), rest)) : kinds ts = .identifier x :: kinds rest.1 := by
  unfold readName at h
  split at h
  · cases h
  · split at h
    · rename_i hk
      cases h
      exact congrArg (· :: _) hk
    · cases h

theorem words_of_baseTy? {k : Kind} (h : baseTy? k = some ty) : ty.words = [k] := by
  unfold baseTy? at h
  split at h <;> cases h <;> rfl

/-- The stars taken are those of the type. -/
theorem kinds_readStars (ty : Ty) (ts : List Token) :
    ty.words ++ kinds ts = (readStars ty ts).1.words ++ kinds (readStars ty ts).2.1 := by
  induction ts generalizing ty with
  | nil => rfl
  | cons t ts ih =>
    unfold readStars
    split
    · rename_i hk
      have ih := ih (.pointer ty)
      show ty.words ++ t.kind :: kinds ts = _
      rw [hk, ← List.singleton_append, ← List.append_assoc]
      exact ih
    · rfl

/-- A type takes its own words. -/
theorem kinds_of_readTy {rest : Left ts.length} (h : readTy last ts = .ok (ty, rest)) :
    kinds ts = ty.words ++ kinds rest.1 := by
  unfold readTy at h
  split at h
  · cases h
  · rename_i t ts
    split at h
    · rename_i base hbase
      cases h
      have hstars := kinds_readStars base ts
      rw [words_of_baseTy? hbase] at hstars
      exact hstars
    · cases h

/-- A cast takes those and the parenthesis. -/
theorem kinds_of_readCast {rest : Left ts.length} (h : readCast last ts = .ok (ty, rest)) :
    kinds ts = ty.words ++ Kind.punct .rparen :: kinds rest.1 := by
  obtain ⟨⟨ty', after⟩, hty, h⟩ := bind_eq_ok.1 h
  obtain ⟨after', hparen, h⟩ := bind_eq_ok.1 h
  cases h
  rw [kinds_of_readTy hty, kinds_of_expect hparen]
  rfl

/-- An operator is the sign it was read from. -/
theorem words_of_operator? {ob : Bool} {line : Nat} {n : Node} (h : operator? ob p line = some n) :
    words n.marks = [.punct p] := by
  cases p <;> cases ob <;> cases h <;> rfl

/-! ## §5. Expressions -/

/-- An expression is ended by a token that may end it. -/
theorem RunRead.ends {last : Nat} {stop : Stop} {ob : Bool} {ts left : List Token} {s : Token}
    {e : Run} : RunRead last stop ob ts e (some (s, left)) → stop.ends s.kind = true
  | .last _ _ hs => hs
  | .more _ _ _ hrun => hrun.ends

/-- Arguments that are read one by one are not none. -/
theorem MoreArgsRead.exists_arg {args : Args} {rest : Option (List Token)}
    (h : MoreArgsRead last ts args rest) : ∃ e more, args = .arg e more := by
  cases h <;> exact ⟨_, _, rfl⟩

/-- The word that ends an expression belongs to the phrase around it. -/
theorem Took.closed {ms : List Mark} {w : Bool} {rest : Option (Token × List Token)}
    (h : Took ts ms w (rest.map fun s => s.1 :: s.2))
    (hp : ∀ {s : Token} {left : List Token}, rest = some (s, left) → s.kind = .punct p) :
    Took ts (ms ++ [punct p]) w (rest.map Prod.snd) := by
  cases rest with
  | none => exact h.ended id (by simp)
  | some r =>
    obtain ⟨s, left⟩ := r
    have h : kinds ts = words ms ++ s.kind :: kinds left := h
    show kinds ts = words (ms ++ [punct p]) ++ kinds left
    rw [h, hp rfl, words_append, List.append_assoc]
    rfl

mutual

/-- An operand or operator takes its own words. -/
theorem NodeRead.took {ob : Bool} {t : Token} {ts : List Token} {n : Node}
    {rest : Option (List Token)} :
    NodeRead last ob t ts n rest → Took (t :: ts) n.marks n.whole rest
  | .int hk => congrArg (· :: kinds ts) hk
  | .float hk => congrArg (· :: kinds ts) hk
  | .call hk hargs => ((hargs.took.cons rfl).cons hk).congr rfl id
  | .name hk _ => congrArg (· :: kinds ts) hk
  | .cast hk _ hcast => by
    show t.kind :: kinds ts = _
    rw [hk, kinds_of_readCast hcast]
    simp [Node.marks]
  | .badCast .. => .broken _
  | .group hk _ hrun => (hrun.took.closed fun heq => of_decide_eq_true (heq ▸ hrun).ends).cons hk
  | .operator _ hk hop => by
    show t.kind :: kinds ts = words n.marks ++ kinds ts
    rw [words_of_operator? hop, hk]
    rfl
  | .noOperator .. => .broken _
  | .unexpected .. => .broken _

/-- **The words of an expression are the tokens it was read from.** -/
theorem RunRead.took {stop : Stop} {ob : Bool} {ts : List Token} {e : Run}
    {rest : Option (Token × List Token)} :
    RunRead last stop ob ts e rest → Took ts e.marks e.whole (rest.map fun s => s.1 :: s.2)
  | .nil => .broken _
  | .atStop _ => .broken _
  | .broken _ hnode => hnode.took
  | .unended _ hnode => hnode.took.append (.broken _)
  | .last _ hnode _ => hnode.took
  | .more _ hnode _ hrun => hnode.took.append hrun.took

theorem ArgsRead.took {ts : List Token} {args : Args} {rest : Option (List Token)} :
    ArgsRead last ts args rest → Took ts (args.marks ++ [punct .rparen]) args.whole rest
  | .none => rfl
  | .some _ hmore => hmore.took

/-- Arguments take theirs, and the parenthesis. -/
theorem MoreArgsRead.took {ts : List Token} {args : Args} {rest : Option (List Token)} :
    MoreArgsRead last ts args rest → Took ts (args.marks ++ [punct .rparen]) args.whole rest
  | .broken hrun => by
    refine hrun.took.ended ?_ (by simp [Args.marks])
    intro hw
    rw [Args.whole, hw, Bool.false_and]
  | .comma hrun hs hmore => by
    refine (hrun.took.append (hmore.took.cons hs)).congr ?_ id
    obtain ⟨e', more, rfl⟩ := hmore.exists_arg
    simp [Args.marks]
  | .last hrun hs => by
    -- an argument that no comma ends is ended by the parenthesis
    refine hrun.took.closed fun heq => ?_
    cases heq
    simpa [Stop.ends, hs] using hrun.ends

end

theorem RunRead.closed {last : Nat} {stop : Stop} {ob : Bool} {ts : List Token} {e : Run}
    {rest : Option (Token × List Token)} {p : Punct} (h : RunRead last stop ob ts e rest)
    (hp : ∀ k, stop.ends k = true → k = .punct p) :
    Took ts (e.marks ++ [punct p]) e.whole (rest.map Prod.snd) :=
  h.took.closed fun heq => hp _ (heq ▸ h).ends

/-- A run takes its words and the sign that ends it. -/
theorem readRun_closed {stop : Stop} {ob : Bool} {e : Run}
    {rest : Option (Token × Left ts.length)} (hread : readRun last stop ob ts = (e, rest))
    (hp : ∀ k, stop.ends k = true → k = .punct p) :
    Took ts (e.marks ++ [punct p]) e.whole (rest.map (·.2.1)) := by
  have h := (readRun_read hread).closed hp
  rw [Option.map_map] at h
  exact h

/-! ## §6. Declarations -/

/-- Lengths take their words and brackets. -/
theorem readLengths_took (last : Nat) (ts : List Token) :
    Took ts (lengthMarks (readLengths last ts).1) ((readLengths last ts).1.all Run.whole)
      ((readLengths last ts).2.map (·.1)) := by
  induction ts using readLengths.induct last with
  | case1 line after e hrun =>
    rw [readLengths_broken hrun]
    have htook := readRun_closed hrun fun _ => of_decide_eq_true
    refine (htook.cons rfl).congr ?_ ?_
    · simp [lengthMarks]
    · intro hw
      simp [hw]
  | case2 line after e s rest hrun es rest' hmore ih =>
    rw [readLengths_more hrun hmore, Option.map_map]
    rw [hmore] at ih
    have htook := readRun_closed hrun fun _ => of_decide_eq_true
    refine ((htook.cons rfl).append ih).congr ?_ ?_
    · simp [lengthMarks]
    · exact id
  | case3 ts hne =>
    rw [readLengths_none hne]
    rfl

/-- An initial value takes its words and the semicolon. -/
theorem readInitial_took (last : Nat) (ts : List Token) :
    Took ts (readInitial last ts).1.marks (readInitial last ts).1.whole
      ((readInitial last ts).2.map (·.1)) := by
  unfold readInitial
  split
  · rename_i line after
    cases hrun : readRun last .semicolon false after with
    | mk e rest =>
      dsimp only
      rw [Option.map_map]
      exact (readRun_closed hrun fun _ => of_decide_eq_true).cons rfl
  · cases hsemi : expect last .semicolon ts with
    | error f => exact .broken _
    | ok rest => exact kinds_of_expect hsemi

/-- A declaration takes its own words. -/
theorem readDeclaration_took {d : Declaration} {rest : Option (Left ts.length)}
    (h : readDeclaration last ts = .ok (d, rest)) : Took ts d.marks d.whole (rest.map (·.1)) := by
  obtain ⟨⟨base, afterTy⟩, hty, h⟩ := bind_eq_ok.1 h
  obtain ⟨⟨⟨x, line⟩, afterName⟩, hname, h⟩ := bind_eq_ok.1 h
  have hfront : kinds ts = (base.words ++ [Kind.identifier x]) ++ kinds afterName.1 := by
    rw [kinds_of_readTy hty, kinds_of_readName hname, List.append_assoc]
    rfl
  have hlengths := readLengths_took last afterName.1
  dsimp only at h
  split at h
  · rename_i lengths hread
    cases h
    rw [hread] at hlengths
    refine (Took.after hfront hlengths).ended ?_ ?_
    · intro hw
      rw [Declaration.whole, hw, Bool.false_and]
    · simp [Declaration.marks, Initial.marks]
  · rename_i lengths afterLengths hread
    cases h
    rw [hread] at hlengths
    have hinit := readInitial_took last afterLengths.1
    rw [Option.map_map]
    refine (Took.after hfront (hlengths.append hinit)).congr ?_ ?_
    · simp [Declaration.marks]
    · exact id

/-! ## §7. Statements -/

/-- A condition takes its words and parentheses. -/
theorem readCondition_took {cond : Run} {rest : Option (Left ts.length)}
    (hread : readCondition last ts = (cond, rest)) :
    Took ts (punct .lparen :: (cond.marks ++ [punct .rparen])) cond.whole (rest.map (·.1)) := by
  unfold readCondition at hread
  cases hparen : expect last .lparen ts with
  | error f =>
    rw [hparen] at hread
    cases hread
    exact (Took.broken ts).ended id (by simp [Run.marks, Node.marks])
  | ok after =>
    have hfront : kinds ts = [Kind.punct .lparen] ++ kinds after.1 := kinds_of_expect hparen
    rw [hparen] at hread
    cases hread
    rw [Option.map_map]
    exact Took.after hfront (readRun_closed rfl fun _ => of_decide_eq_true)

/-- A jump takes its semicolon. -/
theorem readJumpEnd_took {fault : Option Fault} {rest : Option (Left ts.length)}
    (hread : readJumpEnd last ts = (fault, rest)) :
    Took ts [punct .semicolon] fault.isNone (rest.map (·.1)) := by
  unfold readJumpEnd at hread
  cases hsemi : expect last .semicolon ts with
  | error f =>
    rw [hsemi] at hread
    cases hread
    exact (Took.broken ts).ended id (by simp)
  | ok rest =>
    rw [hsemi] at hread
    cases hread
    exact kinds_of_expect hsemi

/-- The words between the block of a test and its other branch. -/
def AfterTest.words {n : Nat} : AfterTest n → List Kind
  | .nothing => []
  | .test _ => [.keyword .kwElse, .keyword .kwIf]
  | .block _ => [.keyword .kwElse]

/-- What is left after these words. -/
def AfterTest.rest (ts : List Token) : AfterTest ts.length → List Token
  | .nothing => ts
  | .test after | .block after => after.1

/-- The words that open the other branch are taken. -/
theorem kinds_afterTest (ts : List Token) :
    kinds ts = (afterTest ts).words ++ kinds ((afterTest ts).rest ts) := by
  cases ts with
  | nil => rfl
  | cons t ts =>
    by_cases ht : t.kind = .keyword .kwElse
    · cases ts with
      | nil => simp [afterTest, ht, AfterTest.words, AfterTest.rest, Left.tail]
      | cons s rest =>
        by_cases hs : s.kind = .keyword .kwIf
        · simp [afterTest, ht, hs, AfterTest.words, AfterTest.rest, Left.tail, Left.succ]
        · simp [afterTest, ht, hs, AfterTest.words, AfterTest.rest, Left.tail]
    · simp [afterTest, ht, AfterTest.words, AfterTest.rest]

/-- The marks of a test and what depends on it, after the word that opens
it. -/
def branchMarks (cond : Run) (body : List Stmt) (otherwise : Else) : List Mark :=
  punct .lparen :: (cond.marks ++ punct .rparen ::
    (block [] (Stmt.marksOf body) ++ otherwise.marks))

mutual

/-- **The words of a statement are the tokens it was read from.** -/
theorem StmtRead.took {ts : List Token} {s : Stmt} {rest : Option (List Token)} :
    StmtRead last ts s rest → Took ts s.marks s.whole rest
  | .nil hrun => hrun.closed fun _ => of_decide_eq_true
  | .declare _ hdecl => readDeclaration_took hdecl
  | .badDeclaration .. => .broken _
  | .ret hk => congrArg (· :: _) hk
  | .retValue hk _ hrun => (hrun.closed fun _ => of_decide_eq_true).cons hk
  | .branch hk hbranch => hbranch.took.cons hk
  | .badLoop hk hcond => by
    refine ((readCondition_took hcond).cons hk).ended ?_ ?_
    · intro hw
      rw [Stmt.whole, hw, Bool.false_and]
    · simp [Stmt.marks, block, Stmt.marksOf]
  | .loop hk hcond hblock => by
    refine (((readCondition_took hcond).cons hk).append hblock.took).congr ?_ id
    simp [Stmt.marks]
  | .leave hk hend => (readJumpEnd_took hend).cons hk
  | .again hk hend => (readJumpEnd_took hend).cons hk
  | .expr _ hrun _ _ _ _ _ => hrun.closed fun _ => of_decide_eq_true

/-- A block takes its statements and braces. -/
theorem BlockRead.took {ts : List Token} {body : List Stmt} {rest : Option (List Token)} :
    BlockRead last ts body rest → Took ts (block [] (Stmt.marksOf body)) (Stmt.wholeAll body) rest
  | .broken _ => (Took.broken ts).ended id (by simp [block, Stmt.marksOf, Stmt.marks])
  | .ok hbrace hrest => by
    have hfront : kinds ts = [Kind.punct .lbrace] ++ _ := kinds_of_expect hbrace
    refine (Took.after hfront hrest.took).congr ?_ id
    simp [block]

/-- Statements take their words and the closing brace. -/
theorem BlockRestRead.took {ts : List Token} {body : List Stmt} {rest : Option (List Token)} :
    BlockRestRead last ts body rest →
    Took ts (Stmt.marksOf body ++ [punct .rbrace, .closes]) (Stmt.wholeAll body) rest
  | .nil => (Took.broken []).ended id (by simp [Stmt.marksOf, Stmt.marks])
  | .ends hk => congrArg (· :: _) hk
  | .broken _ hstmt => by
    refine hstmt.took.ended ?_ (by simp [Stmt.marksOf])
    intro hw
    rw [Stmt.wholeAll, hw, Bool.false_and]
  | .more _ hstmt hrest => by
    refine (hstmt.took.append hrest.took).congr ?_ id
    simp [Stmt.marksOf]

/-- A test takes its words and those of its branches. -/
theorem BranchRead.took {ts : List Token} {b : Run × List Stmt × Else}
    {rest : Option (List Token)} : BranchRead last ts b rest →
    Took ts (branchMarks b.1 b.2.1 b.2.2)
      (b.1.whole && (Stmt.wholeAll b.2.1 && b.2.2.whole)) rest
  | .badCondition hcond => by
    refine (readCondition_took hcond).ended ?_ ?_
    · intro hw
      simp [hw]
    · simp [branchMarks, block, Stmt.marksOf, Else.marks]
  | .badBlock hcond hblock => by
    refine ((readCondition_took hcond).append hblock.took).congr ?_ ?_
    · simp [branchMarks, Else.marks]
    · intro hw
      rw [Else.whole, Bool.and_true]
      exact hw
  | .ok hcond hblock helse => by
    refine ((readCondition_took hcond).append (hblock.took.append helse.took)).congr ?_ id
    simp [branchMarks]

/-- The other branch takes its own. -/
theorem ElseRead.took {ts : List Token} {e : Else} {rest : Option (List Token)} :
    ElseRead last ts e rest → Took ts e.marks e.whole rest
  | .nothing _ => rfl
  | .test hafter hbranch => by
    have hwords := kinds_afterTest ts
    rw [hafter] at hwords
    exact Took.after hwords hbranch.took
  | .block hafter hblock => by
    have hwords := kinds_afterTest ts
    rw [hafter] at hwords
    exact Took.after hwords hblock.took

end

/-! ## §8. Items -/

/-- The word that follows a parameter. -/
def ParamEnd.word : ParamEnd → Punct
  | .comma => .comma
  | .paren => .rparen

/-- The sign after a parameter is the next word. -/
theorem kinds_of_readParamEnd {e : ParamEnd} {rest : Left ts.length}
    (h : readParamEnd last ts = .ok (e, rest)) : kinds ts = .punct e.word :: kinds rest.1 := by
  unfold readParamEnd at h
  split at h
  · cases h
  · split at h
    · rename_i hk
      cases h
      exact congrArg (· :: _) hk
    · split at h
      · rename_i hk
        cases h
        exact congrArg (· :: _) hk
      · cases h

/-- What is left, unless there was a fault. -/
def left? {n : Nat} : Except Fault (Left n) → Option (List Token)
  | .ok rest => some rest.1
  | .error _ => none

/-- Parameters after the first, with the comma in front of them. -/
theorem words_paramMarks_cons (p : Param) (ps : List Param) :
    words (paramMarks (p :: ps)) =
      words p.marks ++ if ps = [] then [] else .punct .comma :: words (paramMarks ps) := by
  cases ps with
  | nil => simp [paramMarks]
  | cons p' ps => simp [paramMarks]

/-- What reading parameters takes; whether reading ended there is told
apart. -/
def ParamsTook (last : Nat) (ts : List Token) : Prop :=
  Took ts (paramMarks (readParams last ts).1 ++ [punct .rparen]) false
      (left? (readParams last ts).2) ∧
    ((left? (readParams last ts).2).isSome → (readParams last ts).1 ≠ [])

/-- Parameters take their words, commas between, and the parenthesis. -/
theorem readParams_took (last : Nat) (ts : List Token) : ParamsTook last ts := by
  induction ts using readParams.induct last with
  | case1 ts f hty =>
    rw [ParamsTook, readParams_badTy hty]
    exact ⟨(Took.broken ts).ended id (by simp [paramMarks]), nofun⟩
  | case2 ts ty afterTy hty f hname =>
    rw [ParamsTook, readParams_badName hty hname]
    exact ⟨(Took.broken ts).ended id (by simp [paramMarks]), nofun⟩
  | case3 ts ty afterTy hty x line afterName hname f hend =>
    have hfront : kinds ts = (ty.words ++ [Kind.identifier x]) ++ kinds afterName.1 := by
      rw [kinds_of_readTy hty, kinds_of_readName hname, List.append_assoc]
      rfl
    rw [ParamsTook, readParams_badEnd hty hname hend]
    refine ⟨(Took.after hfront (.broken _)).ended id ?_, nofun⟩
    simp [paramMarks, Param.marks]
  | case4 ts ty afterTy hty x line afterName hname rest hend params result hmore ih =>
    have hfront : kinds ts =
        (ty.words ++ [Kind.identifier x, .punct .comma]) ++ kinds rest.1 := by
      rw [kinds_of_readTy hty, kinds_of_readName hname, kinds_of_readParamEnd hend,
        List.append_assoc]
      rfl
    rw [ParamsTook, hmore] at ih
    rw [ParamsTook, readParams_comma hty hname hend hmore]
    refine ⟨?_, fun _ => List.cons_ne_nil _ _⟩
    cases result with
    | error f =>
      refine (Took.after hfront ih.1).ended id ?_
      intro y hy
      rw [words_append, words_paramMarks_cons] at hy
      by_cases hps : params = []
      · rw [hps] at hy
        simpa [Param.marks, hps, paramMarks] using hy
      · simpa [Param.marks, hps] using hy
    | ok after =>
      refine (Took.after hfront ih.1).congr ?_ id
      rw [words_append, words_paramMarks_cons, if_neg (ih.2 rfl)]
      simp [Param.marks]
  | case5 ts ty afterTy hty x line afterName hname rest hend =>
    rw [ParamsTook, readParams_paren hty hname hend]
    refine ⟨?_, fun _ => List.cons_ne_nil _ _⟩
    show kinds ts = words (paramMarks [⟨ty, x, line⟩] ++ [punct .rparen]) ++ kinds rest.1
    rw [kinds_of_readTy hty, kinds_of_readName hname, kinds_of_readParamEnd hend]
    simp [paramMarks, Param.marks, ParamEnd.word]

/-- A list of parameters takes its words and the parenthesis. -/
theorem readParamList_took (last : Nat) (ts : List Token) :
    Took ts (paramMarks (readParamList last ts).1 ++ [punct .rparen]) false
      (left? (readParamList last ts).2) := by
  unfold readParamList
  split
  · rfl
  · exact (readParams_took last ts).1

/-- The head of a function takes its own words. -/
theorem readSignature_took {sig : Signature} {rest : Option (Left ts.length)}
    (h : readSignature last ts = .ok (sig, rest)) :
    Took ts sig.marks sig.fault.isNone (rest.map (·.1)) := by
  obtain ⟨⟨ret, afterTy⟩, hty, h⟩ := bind_eq_ok.1 h
  obtain ⟨⟨⟨x, line⟩, afterName⟩, hname, h⟩ := bind_eq_ok.1 h
  obtain ⟨afterParen, hparen, h⟩ := bind_eq_ok.1 h
  have hfront : kinds ts =
      (ret.words ++ [Kind.identifier x, .punct .lparen]) ++ kinds afterParen.1 := by
    rw [kinds_of_readTy hty, kinds_of_readName hname, kinds_of_expect hparen, List.append_assoc]
    rfl
  have hparams := readParamList_took last afterParen.1
  split at h
  · rename_i params f hread
    cases h
    rw [hread] at hparams
    refine (Took.after hfront hparams).ended id ?_
    simp [Signature.marks]
  · rename_i params rest' hread
    cases h
    rw [hread] at hparams
    have hparams : kinds afterParen.1 =
        words (paramMarks params ++ [punct .rparen]) ++ kinds rest'.1 := hparams
    show kinds ts = words (Signature.marks ⟨ret, x, line, params, none⟩) ++ kinds rest'.1
    rw [hfront, hparams]
    simp [Signature.marks]

/-- The end of an import is its semicolon. -/
theorem readImportEnd_took {fault : Option Fault} {rest : Option (Left ts.length)}
    (hread : readImportEnd last ts = (fault, rest)) :
    Took ts [punct .semicolon] fault.isNone (rest.map (·.1)) := by
  unfold readImportEnd at hread
  split at hread
  · cases hread
    exact (Took.broken _).ended id (by simp)
  · exact readJumpEnd_took hread

/-- Parameters are declared without a word. -/
@[simp] theorem words_paramDecls (ps : List Param) : words (paramDecls ps) = [] := by
  induction ps with
  | nil => rfl
  | cons p ps ih => exact ih

/-- A body takes its own words. -/
theorem readBody_took (ps : List Param) {body : Body} {rest : Option (Left ts.length)}
    (hread : readBody last ts = (body, rest)) :
    Took ts (body.marks ps) body.whole (rest.map (·.1)) := by
  cases ts with
  | nil =>
    cases hread
    exact .broken _
  | cons t after =>
    unfold readBody at hread
    dsimp only at hread
    split at hread
    · rename_i hk
      cases hread
      exact congrArg (· :: _) hk
    · split at hread
      · rename_i hk
        cases hread
        rw [Option.map_map]
        refine (((statements_read last).2.2.1 after).took.cons hk).congr ?_ id
        simp [Body.marks, block]
      · cases hread
        exact .broken _

/-- **An item takes exactly its own words.**. -/
theorem ItemRead.took {t : Token} {i : Item} {rest : Option (List Token)}
    (h : ItemRead last t ts i rest) : Took (t :: ts) i.marks i.whole rest := by
  cases h with
  | badImport | badFunction | badGlobal | other => exact .broken _
  | importHead hk hsig =>
    refine ((readSignature_took hsig).cons hk).ended ?_ ?_
    · intro hw
      rw [Item.whole, hw, Bool.false_and]
    · simp [Item.marks]
  | imported hk hsig hend =>
    exact ((readSignature_took hsig).cons hk).append (readImportEnd_took hend)
  | functionHead _ _ hsig =>
    refine (readSignature_took hsig).ended ?_ ?_
    · intro hw
      rw [Item.whole, hw, Bool.false_and]
    · simp [Item.marks, Body.marks]
  | function _ _ hsig hbody => exact (readSignature_took hsig).append (readBody_took _ hbody)
  | global _ _ _ hdecl => exact readDeclaration_took hdecl

/-- **The names in an outline are names of the text**, whole or not. -/
theorem names_readItems (last : Nat) (ts : List Token) {x : String}
    (h : Kind.identifier x ∈ words (marksOf (readItems last ts))) : .identifier x ∈ kinds ts := by
  have his := readItems_read last ts
  generalize readItems last ts = is at h his
  induction his with
  | nil => exact h
  | broken hitem =>
    rw [marksOf, List.flatMap_cons, List.flatMap_nil, List.append_nil] at h
    exact hitem.took.names h
  | @more t ts rest i is hitem _ ih =>
    rw [marksOf, List.flatMap_cons, words_append] at h
    have hts : kinds (t :: ts) = words i.marks ++ kinds rest := hitem.took
    rw [hts]
    rcases List.mem_append.1 h with h | h
    · exact List.mem_append_left _ h
    · exact List.mem_append_right _ (ih h)

/-- **A whole outline is the text.**  Its words are the tokens, in order. -/
theorem words_readItems (last : Nat) (ts : List Token)
    (h : ∀ i ∈ readItems last ts, i.whole = true) :
    words (marksOf (readItems last ts)) = kinds ts := by
  have his := readItems_read last ts
  generalize readItems last ts = is at h his
  induction his with
  | nil => rfl
  | broken hitem =>
    -- reading ended within the only item, which is not whole then
    have hwhole := List.forall_mem_singleton.1 h
    rw [hitem.took.1] at hwhole
    cases hwhole
  | @more t ts rest i is hitem _ ih =>
    obtain ⟨_, his⟩ := List.forall_mem_cons.1 h
    have hts : kinds (t :: ts) = words i.marks ++ kinds rest := hitem.took
    rw [hts, ← ih his, ← words_append]
    rfl

end Outline

end MiniC
