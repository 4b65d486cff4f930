/-
  MiniC.Proofs.Reading.Relations

  **The ways to read a phrase.**

  The reading functions recur on the number of tokens, and what they leave
  carries a proof that it is less than they found.  Here reading is a relation
  between tokens, a phrase and the tokens left after it, with a rule for each
  way to read: `none` says that reading ended with a fault.

  The relations hold of what the functions give (`expressions_read`,
  `statements_read`, `readItems_read`) and of nothing else (`NodeRead.eq`,
  `StmtRead.eq`, `ItemsRead.eq`).  A property of all that is read goes through
  the rules, and the functions are not opened again.
-/
import MiniC.Outline.Items

namespace MiniC.Outline

variable {n : Nat} {e : Run} {stop : Stop}

/-! ## §1. What is left, as a plain list -/

/-- What was read, and what is left as a plain list. -/
def plain {α : Type} {P : List Token → Prop} (r : α × Option (Subtype P)) :
    α × Option (List Token) :=
  (r.1, r.2.map (·.1))

/-- What was read, with the proof that it is shorter. -/
theorem eq_of_plain {α : Type} {P : List Token → Prop} {r : α × Option (Subtype P)} {a : α}
    {rest? : Option (List Token)} (h : plain r = (a, rest?)) :
    ∃ rest, r = (a, rest) ∧ rest.map (·.1) = rest? := by
  obtain ⟨a', rest⟩ := r
  cases h
  exact ⟨rest, rfl, rfl⟩

/-- What is left, with its proof. -/
theorem eq_some_of_map_val {P : List Token → Prop} {rest : Option (Subtype P)} {ts : List Token}
    (h : rest.map (·.1) = some ts) : ∃ hts, rest = some ⟨ts, hts⟩ := by
  cases rest with
  | none => cases h
  | some l =>
    obtain ⟨l, hts⟩ := l
    cases h
    exact ⟨hts, rfl⟩

/-- An expression that was read, what ended it, and what is left. -/
def plainRun {n : Nat} (r : Run × Option (Token × Left n)) :
    Run × Option (Token × List Token) :=
  (r.1, r.2.map fun s => (s.1, s.2.1))

/-- What was read of a run, with the proof that it is shorter. -/
theorem eq_of_plainRun {r : Run × Option (Token × Left n)} {rest? : Option (Token × List Token)}
    (h : plainRun r = (e, rest?)) :
    ∃ rest, r = (e, rest) ∧ (rest.map fun s => (s.1, s.2.1)) = rest? := by
  obtain ⟨e', rest⟩ := r
  cases h
  exact ⟨rest, rfl, rfl⟩

/-- What is left after a run, with its proof. -/
theorem eq_some_of_map_run {rest : Option (Token × Left n)} {s : Token} {ts : List Token}
    (h : (rest.map fun s => (s.1, s.2.1)) = some (s, ts)) : ∃ hlt, rest = some (s, ⟨ts, hlt⟩) := by
  cases rest with
  | none => cases h
  | some r =>
    obtain ⟨s', l, hlt⟩ := r
    cases h
    exact ⟨hlt, rfl⟩

/-- A phrase that leaves the tokens that its last part leaves. -/
theorem plain_map {α : Type} {P Q : List Token → Prop} {g : Subtype P → Subtype Q} {a : α}
    {rest : Option (Subtype P)} (hg : ∀ l, (g l).1 = l.1 := by intro _; rfl) :
    plain (a, rest.map g) = (a, rest.map (·.1)) := by
  show (a, (rest.map g).map _) = _
  rw [Option.map_map]
  exact congrArg (fun h => (a, Option.map h rest)) (funext hg)

/-- A phrase that leaves what is left after the word that ends an expression. -/
theorem plain_map_run {α : Type} {P : List Token → Prop} {g : Token × Left n → Subtype P} {a : α}
    {rest : Option (Token × Left n)} (hg : ∀ s, (g s).1 = s.2.1 := by intro _; rfl) :
    plain (a, rest.map g) = (a, (rest.map fun s => (s.1, s.2.1)).map Prod.snd) := by
  show (a, (rest.map g).map _) = _
  rw [Option.map_map, Option.map_map]
  exact congrArg (fun h => (a, Option.map h rest)) (funext hg)

/-! ## §2. Expressions -/

mutual

/-- The ways to read the element that starts with a token. -/
inductive NodeRead (last : Nat) :
    Bool → Token → List Token → Node → Option (List Token) → Prop where
  | int {ob : Bool} {t : Token} {ts : List Token} {n : Int32} (hk : t.kind = .integer n) :
      NodeRead last ob t ts (.int n t.line) (some ts)
  | float {ob : Bool} {t : Token} {ts : List Token} {x : Binary32} (hk : t.kind = .float x) :
      NodeRead last ob t ts (.float x t.line) (some ts)
  | call {ob : Bool} {t : Token} {line : Nat} {after : List Token} {f : String} {args : Args}
      {rest : Option (List Token)} (hk : t.kind = .identifier f)
      (hargs : ArgsRead last after args rest) :
      NodeRead last ob t (⟨.punct .lparen, line⟩ :: after) (.call f t.line args) rest
  | name {ob : Bool} {t : Token} {ts : List Token} {x : String} (hk : t.kind = .identifier x)
      (hne : ∀ line after, ts = ⟨.punct .lparen, line⟩ :: after → False) :
      NodeRead last ob t ts (.name x t.line) (some ts)
  | cast {ob : Bool} {t : Token} {ts : List Token} {ty : Ty} {rest : Left ts.length}
      (hk : t.kind = .punct .lparen) (hty : startsType ts = true)
      (hcast : readCast last ts = .ok (ty, rest)) :
      NodeRead last ob t ts (.unary .cast (some ty) t.line) (some rest.1)
  | badCast {ob : Bool} {t : Token} {ts : List Token} {f : Fault} (hk : t.kind = .punct .lparen)
      (hty : startsType ts = true) (hcast : readCast last ts = .error f) :
      NodeRead last ob t ts (.broken f) none
  | group {ob : Bool} {t : Token} {ts : List Token} {inner : Run}
      {rest : Option (Token × List Token)} (hk : t.kind = .punct .lparen)
      (hty : ¬ startsType ts = true) (hrun : RunRead last .paren false ts inner rest) :
      NodeRead last ob t ts (.group inner) (rest.map Prod.snd)
  | operator {ob : Bool} {t : Token} {ts : List Token} {p : Punct} {n : Node}
      (hp : p = .lparen → False) (hk : t.kind = .punct p)
      (hop : operator? ob p t.line = some n) : NodeRead last ob t ts n (some ts)
  | noOperator {ob : Bool} {t : Token} {ts : List Token} {p : Punct} (hp : p = .lparen → False)
      (hk : t.kind = .punct p) (hop : operator? ob p t.line = none) :
      NodeRead last ob t ts (.broken (.unexpected t)) none
  | unexpected {ob : Bool} {t : Token} {ts : List Token}
      (hint : ∀ n, t.kind = .integer n → False) (hfloat : ∀ x, t.kind = .float x → False)
      (hid : ∀ x, t.kind = .identifier x → False) (hpunct : ∀ p, t.kind = .punct p → False) :
      NodeRead last ob t ts (.broken (.unexpected t)) none

/-- The ways to read an expression; the token that ends it is left apart. -/
inductive RunRead (last : Nat) :
    Stop → Bool → List Token → Run → Option (Token × List Token) → Prop where
  | nil {stop : Stop} {ob : Bool} :
      RunRead last stop ob [] (.last (.broken (.unexpected (front last [])))) none
  | atStop {stop : Stop} {ob : Bool} {t : Token} {ts : List Token}
      (hstop : stop.ends t.kind = true) :
      RunRead last stop ob (t :: ts) (.last (.broken (.expected .anExpression t))) none
  | broken {stop : Stop} {ob : Bool} {t : Token} {ts : List Token} {n : Node}
      (hstop : ¬ stop.ends t.kind = true) (hnode : NodeRead last ob t ts n none) :
      RunRead last stop ob (t :: ts) (.last n) none
  | unended {stop : Stop} {ob : Bool} {t : Token} {ts : List Token} {n : Node}
      (hstop : ¬ stop.ends t.kind = true) (hnode : NodeRead last ob t ts n (some [])) :
      RunRead last stop ob (t :: ts) (.more n (.last (.broken (.unexpected (front last []))))) none
  | last {stop : Stop} {ob : Bool} {t s : Token} {ts rest : List Token} {n : Node}
      (hstop : ¬ stop.ends t.kind = true) (hnode : NodeRead last ob t ts n (some (s :: rest)))
      (hs : stop.ends s.kind = true) : RunRead last stop ob (t :: ts) (.last n) (some (s, rest))
  | more {stop : Stop} {ob : Bool} {t s : Token} {ts rest : List Token} {n : Node} {r : Run}
      {rest' : Option (Token × List Token)} (hstop : ¬ stop.ends t.kind = true)
      (hnode : NodeRead last ob t ts n (some (s :: rest))) (hs : ¬ stop.ends s.kind = true)
      (hrun : RunRead last stop n.isOperand (s :: rest) r rest') :
      RunRead last stop ob (t :: ts) (.more n r) rest'

/-- The ways to read the arguments of a call. -/
inductive ArgsRead (last : Nat) : List Token → Args → Option (List Token) → Prop where
  | none {line : Nat} {after : List Token} :
      ArgsRead last (⟨.punct .rparen, line⟩ :: after) .none (some after)
  | some {ts : List Token} {args : Args} {rest : Option (List Token)}
      (hne : ∀ line after, ts = ⟨.punct .rparen, line⟩ :: after → False)
      (hmore : MoreArgsRead last ts args rest) : ArgsRead last ts args rest

/-- The ways to read one argument and those after it. -/
inductive MoreArgsRead (last : Nat) : List Token → Args → Option (List Token) → Prop where
  | broken {ts : List Token} {e : Run} (hrun : RunRead last .argument false ts e none) :
      MoreArgsRead last ts (.arg e .none) none
  | comma {ts rest : List Token} {s : Token} {e : Run} {args : Args} {rest' : Option (List Token)}
      (hrun : RunRead last .argument false ts e (some (s, rest))) (hs : s.kind = .punct .comma)
      (hmore : MoreArgsRead last rest args rest') : MoreArgsRead last ts (.arg e args) rest'
  | last {ts rest : List Token} {s : Token} {e : Run}
      (hrun : RunRead last .argument false ts e (some (s, rest)))
      (hs : ¬ s.kind = .punct .comma) : MoreArgsRead last ts (.arg e .none) (some rest)

end

/-! What is read in one of these ways is what the functions give. -/

variable {last : Nat}

mutual

/-- The relation is what the reader of operands does. -/
theorem NodeRead.eq {ob : Bool} {t : Token} {ts : List Token} {n : Node}
    {rest : Option (List Token)} :
    NodeRead last ob t ts n rest → plain (readNode last ob t ts) = (n, rest)
  | .int hk => by
    rw [readNode, hk]
    rfl
  | .float hk => by
    rw [readNode, hk]
    rfl
  | .call hk hargs => by
    obtain ⟨_, hread, rfl⟩ := eq_of_plain hargs.eq
    rw [readNode, hk]
    dsimp only
    rw [hread]
    exact plain_map
  | .name hk hne => by
    rw [readNode, hk]
    dsimp only
    split
    · exact absurd rfl (hne _ _)
    · rfl
  | .cast hk hty hcast => by
    rw [readNode, hk]
    dsimp only
    rw [if_pos hty, hcast]
    rfl
  | .badCast hk hty hcast => by
    rw [readNode, hk]
    dsimp only
    rw [if_pos hty, hcast]
    rfl
  | .group hk hty hrun => by
    obtain ⟨_, hread, rfl⟩ := eq_of_plainRun hrun.eq
    rw [readNode, hk]
    dsimp only
    rw [if_neg hty, hread]
    exact plain_map_run
  | .operator hp hk hop => by
    unfold readNode
    simp only [hk, hop]
    rfl
  | .noOperator hp hk hop => by
    unfold readNode
    simp only [hk, hop]
    rfl
  | .unexpected hint hfloat hid hpunct => by
    unfold readNode
    split
    · exact absurd ‹_› (hint _)
    · exact absurd ‹_› (hfloat _)
    · exact absurd ‹_› (hid _)
    · exact absurd ‹_› (hpunct _)
    · exact absurd ‹_› (hpunct _)
    · rfl

/-- The relation is what the reader of runs does. -/
theorem RunRead.eq {stop : Stop} {ob : Bool} {ts : List Token} {e : Run}
    {rest : Option (Token × List Token)} :
    RunRead last stop ob ts e rest → plainRun (readRun last stop ob ts) = (e, rest)
  | .nil => by
    rw [readRun]
    rfl
  | .atStop hstop => by
    rw [readRun, if_pos hstop]
    rfl
  | .broken hstop hnode => by
    obtain ⟨_, hread, hrest⟩ := eq_of_plain hnode.eq
    obtain rfl := Option.map_eq_none_iff.1 hrest
    rw [readRun, if_neg hstop, hread]
    rfl
  | .unended hstop hnode => by
    obtain ⟨_, hread, hrest⟩ := eq_of_plain hnode.eq
    obtain ⟨_, rfl⟩ := eq_some_of_map_val hrest
    rw [readRun, if_neg hstop, hread]
    rfl
  | .last hstop hnode hs => by
    obtain ⟨_, hread, hrest⟩ := eq_of_plain hnode.eq
    obtain ⟨_, rfl⟩ := eq_some_of_map_val hrest
    rw [readRun, if_neg hstop, hread]
    dsimp only
    rw [if_pos hs]
    rfl
  | .more hstop hnode hs hrun => by
    obtain ⟨_, hread, hrest⟩ := eq_of_plain hnode.eq
    obtain ⟨_, rfl⟩ := eq_some_of_map_val hrest
    obtain ⟨_, hread', rfl⟩ := eq_of_plainRun hrun.eq
    rw [readRun, if_neg hstop, hread]
    dsimp only
    rw [if_neg hs, hread', plainRun, Option.map_map]
    rfl

/-- The relation is what the reader of arguments does. -/
theorem ArgsRead.eq {ts : List Token} {args : Args} {rest : Option (List Token)} :
    ArgsRead last ts args rest → plain (readArgs last ts) = (args, rest)
  | .none => by
    rw [readArgs]
    rfl
  | .some hne hmore => by
    rw [readArgs]
    · exact hmore.eq
    · exact hne

/-- The relation is what the reader of more arguments does. -/
theorem MoreArgsRead.eq {ts : List Token} {args : Args} {rest : Option (List Token)} :
    MoreArgsRead last ts args rest → plain (readMoreArgs last ts) = (args, rest)
  | .broken hrun => by
    obtain ⟨_, hread, hrest⟩ := eq_of_plainRun hrun.eq
    obtain rfl := Option.map_eq_none_iff.1 hrest
    rw [readMoreArgs, hread]
    rfl
  | .comma hrun hs hmore => by
    obtain ⟨_, hread, hrest⟩ := eq_of_plainRun hrun.eq
    obtain ⟨_, rfl⟩ := eq_some_of_map_run hrest
    obtain ⟨_, hread', rfl⟩ := eq_of_plain hmore.eq
    rw [readMoreArgs, hread]
    dsimp only
    rw [if_pos hs, hread']
    exact plain_map
  | .last hrun hs => by
    obtain ⟨_, hread, hrest⟩ := eq_of_plainRun hrun.eq
    obtain ⟨_, rfl⟩ := eq_some_of_map_run hrest
    rw [readMoreArgs, hread]
    dsimp only
    rw [if_neg hs]
    rfl

end

variable {last : Nat} {ob : Bool} {t : Token} {ts : List Token} {rest : Option (List Token)}

theorem NodeRead.self {n : Node} (h : NodeRead last ob t ts n rest) :
    NodeRead last ob t ts (readNode last ob t ts).1 ((readNode last ob t ts).2.map (·.1)) := by
  obtain ⟨_, hread, rfl⟩ := eq_of_plain h.eq
  rwa [hread]

theorem RunRead.self {rest : Option (Token × List Token)} (h : RunRead last stop ob ts e rest) :
    RunRead last stop ob ts (readRun last stop ob ts).1
      ((readRun last stop ob ts).2.map fun s => (s.1, s.2.1)) := by
  obtain ⟨_, hread, rfl⟩ := eq_of_plainRun h.eq
  rwa [hread]

theorem ArgsRead.self {args : Args} (h : ArgsRead last ts args rest) :
    ArgsRead last ts (readArgs last ts).1 ((readArgs last ts).2.map (·.1)) := by
  obtain ⟨_, hread, rfl⟩ := eq_of_plain h.eq
  rwa [hread]

theorem MoreArgsRead.self {args : Args} (h : MoreArgsRead last ts args rest) :
    MoreArgsRead last ts (readMoreArgs last ts).1 ((readMoreArgs last ts).2.map (·.1)) := by
  obtain ⟨_, hread, rfl⟩ := eq_of_plain h.eq
  rwa [hread]

/-- **Each expression is read in one of these ways.** -/
theorem expressions_read (last : Nat) :
    (∀ ob t ts, NodeRead last ob t ts (readNode last ob t ts).1
      ((readNode last ob t ts).2.map (·.1))) ∧
    (∀ stop ob ts, RunRead last stop ob ts (readRun last stop ob ts).1
      ((readRun last stop ob ts).2.map fun s => (s.1, s.2.1))) ∧
    (∀ ts, ArgsRead last ts (readArgs last ts).1 ((readArgs last ts).2.map (·.1))) ∧
    ∀ ts, MoreArgsRead last ts (readMoreArgs last ts).1
      ((readMoreArgs last ts).2.map (·.1)) := by
  -- the cases of the recursion are the rules, one for one
  refine readNode.mutual_induct last _ _ _ _ ?int ?float ?call ?name ?cast ?badCast ?group
    ?operator ?noOperator ?unexpected ?nil ?atStop ?broken ?unended ?last ?more ?noArgs ?someArgs
    ?brokenArg ?comma ?lastArg
  case int =>
    intro ob t ts n hk
    exact (NodeRead.int hk).self
  case float =>
    intro ob t ts x hk
    exact (NodeRead.float hk).self
  case call =>
    intro ob t f hk line after args rest hargs ih
    exact (NodeRead.call hk ih).self
  case name =>
    intro ob t x hk ts hne
    exact (NodeRead.name hk hne).self
  case cast =>
    intro ob t ts hk hty ty rest hcast
    exact (NodeRead.cast hk hty hcast).self
  case badCast =>
    intro ob t ts hk hty f hcast
    exact (NodeRead.badCast hk hty hcast).self
  case group =>
    intro ob t ts hk hty inner rest hrun ih
    exact (NodeRead.group hk hty ih).self
  case operator =>
    intro ob t ts p hp hk n hop
    exact (NodeRead.operator hp hk hop).self
  case noOperator =>
    intro ob t ts p hp hk hop
    exact (NodeRead.noOperator hp hk hop).self
  case unexpected =>
    intro ob t ts hint hfloat hid _ hpunct
    exact (NodeRead.unexpected hint hfloat hid hpunct).self
  case nil =>
    intro stop ob
    exact RunRead.nil.self
  case atStop =>
    intro stop ob t ts hstop
    exact (RunRead.atStop hstop).self
  case broken =>
    intro stop ob t ts hstop n hnode ih
    rw [hnode] at ih
    exact (RunRead.broken hstop ih).self
  case unended =>
    intro stop ob t ts hstop n hlt hnode ih
    rw [hnode] at ih
    exact (RunRead.unended hstop ih).self
  case last =>
    intro stop ob t ts hstop n s rest hlt hnode hs ih
    rw [hnode] at ih
    exact (RunRead.last hstop ih hs).self
  case more =>
    intro stop ob t ts hstop n s rest hlt hnode hs r rest' hrun ih ihrun
    rw [hnode] at ih
    exact (RunRead.more hstop ih hs ihrun).self
  case noArgs =>
    intro line after
    exact ArgsRead.none.self
  case someArgs =>
    intro ts hne ih
    exact (ArgsRead.some hne ih).self
  case brokenArg =>
    intro ts e hrun ih
    rw [hrun] at ih
    exact (MoreArgsRead.broken ih).self
  case comma =>
    intro ts e s rest hrun hs args rest' hmore ih ihmore
    rw [hrun] at ih
    exact (MoreArgsRead.comma ih hs ihmore).self
  case lastArg =>
    intro ts e s rest hrun hs ih
    rw [hrun] at ih
    exact (MoreArgsRead.last ih hs).self

theorem readRun_read {rest : Option (Token × Left ts.length)}
    (h : readRun last stop ob ts = (e, rest)) :
    RunRead last stop ob ts e (rest.map fun s => (s.1, s.2.1)) := by
  have hread := (expressions_read last).2.1 stop ob ts
  rwa [h] at hread

/-- A run that was read, with what is left. -/
theorem RunRead.eq_some {s : Token} {rest : List Token}
    (h : RunRead last stop ob ts e (some (s, rest))) :
    ∃ hlt, readRun last stop ob ts = (e, some (s, ⟨rest, hlt⟩)) := by
  obtain ⟨_, hread, hrest⟩ := eq_of_plainRun h.eq
  obtain ⟨hlt, rfl⟩ := eq_some_of_map_run hrest
  exact ⟨hlt, hread⟩

/-! ## §3. Statements -/

mutual

/-- The ways to read a statement. -/
inductive StmtRead (last : Nat) : List Token → Stmt → Option (List Token) → Prop where
  | nil {e : Run} {rest : Option (Token × List Token)}
      (hrun : RunRead last .semicolon false [] e rest) :
      StmtRead last [] (.expr e) (rest.map Prod.snd)
  | declare {t : Token} {after : List Token} {d : Declaration}
      {rest : Option (Left (t :: after).length)} (hty : t.kind.isType = true)
      (hdecl : readDeclaration last (t :: after) = .ok (d, rest)) :
      StmtRead last (t :: after) (.declare d) (rest.map (·.1))
  | badDeclaration {t : Token} {after : List Token} {f : Fault} (hty : t.kind.isType = true)
      (hdecl : readDeclaration last (t :: after) = .error f) :
      StmtRead last (t :: after) (.broken f) none
  | ret {t : Token} {line : Nat} {after : List Token} (hk : t.kind = .keyword .kwReturn) :
      StmtRead last (t :: ⟨.punct .semicolon, line⟩ :: after) (.ret t.line) (some after)
  | retValue {t : Token} {after : List Token} {e : Run} {rest : Option (Token × List Token)}
      (hk : t.kind = .keyword .kwReturn)
      (hne : ∀ line rest, after = ⟨.punct .semicolon, line⟩ :: rest → False)
      (hrun : RunRead last .semicolon false after e rest) :
      StmtRead last (t :: after) (.retValue e) (rest.map Prod.snd)
  | branch {t : Token} {after : List Token} {cond : Run} {body : List Stmt} {otherwise : Else}
      {rest : Option (List Token)} (hk : t.kind = .keyword .kwIf)
      (hbranch : BranchRead last after (cond, body, otherwise) rest) :
      StmtRead last (t :: after) (.branch cond body otherwise) rest
  | badLoop {t : Token} {after : List Token} {cond : Run} (hk : t.kind = .keyword .kwWhile)
      (hcond : readCondition last after = (cond, none)) :
      StmtRead last (t :: after) (.loop cond []) none
  | loop {t : Token} {after : List Token} {cond : Run} {afterCond : Left after.length}
      {body : List Stmt} {rest : Option (List Token)} (hk : t.kind = .keyword .kwWhile)
      (hcond : readCondition last after = (cond, some afterCond))
      (hblock : BlockRead last afterCond.1 body rest) :
      StmtRead last (t :: after) (.loop cond body) rest
  | leave {t : Token} {after : List Token} {fault : Option Fault}
      {rest : Option (Left after.length)} (hk : t.kind = .keyword .kwBreak)
      (hend : readJumpEnd last after = (fault, rest)) :
      StmtRead last (t :: after) (.leave t.line fault) (rest.map (·.1))
  | again {t : Token} {after : List Token} {fault : Option Fault}
      {rest : Option (Left after.length)} (hk : t.kind = .keyword .kwContinue)
      (hend : readJumpEnd last after = (fault, rest)) :
      StmtRead last (t :: after) (.again t.line fault) (rest.map (·.1))
  | expr {t : Token} {after : List Token} {e : Run} {rest : Option (Token × List Token)}
      (hty : ¬ t.kind.isType = true) (hrun : RunRead last .semicolon false (t :: after) e rest)
      (hret : t.kind = .keyword .kwReturn → False) (hif : t.kind = .keyword .kwIf → False)
      (hwhile : t.kind = .keyword .kwWhile → False) (hbreak : t.kind = .keyword .kwBreak → False)
      (hcontinue : t.kind = .keyword .kwContinue → False) :
      StmtRead last (t :: after) (.expr e) (rest.map Prod.snd)

/-- The ways to read a block with its braces. -/
inductive BlockRead (last : Nat) : List Token → List Stmt → Option (List Token) → Prop where
  | broken {ts : List Token} {f : Fault} (hbrace : expect last .lbrace ts = .error f) :
      BlockRead last ts [.broken f] none
  | ok {ts : List Token} {after : Left ts.length} {body : List Stmt} {rest : Option (List Token)}
      (hbrace : expect last .lbrace ts = .ok after) (hrest : BlockRestRead last after.1 body rest) :
      BlockRead last ts body rest

/-- The ways to read a block after its opening brace. -/
inductive BlockRestRead (last : Nat) : List Token → List Stmt → Option (List Token) → Prop where
  | nil : BlockRestRead last [] [.broken (.expected (.exactly .rbrace) (front last []))] none
  | ends {t : Token} {after : List Token} (hk : t.kind = .punct .rbrace) :
      BlockRestRead last (t :: after) [] (some after)
  | broken {t : Token} {after : List Token} {s : Stmt} (hk : ¬ t.kind = .punct .rbrace)
      (hstmt : StmtRead last (t :: after) s none) : BlockRestRead last (t :: after) [s] none
  | more {t : Token} {after rest : List Token} {s : Stmt} {body : List Stmt}
      {rest' : Option (List Token)} (hk : ¬ t.kind = .punct .rbrace)
      (hstmt : StmtRead last (t :: after) s (some rest))
      (hrest : BlockRestRead last rest body rest') :
      BlockRestRead last (t :: after) (s :: body) rest'

/-- The ways to read a test and what depends on it. -/
inductive BranchRead (last : Nat) :
    List Token → Run × List Stmt × Else → Option (List Token) → Prop where
  | badCondition {ts : List Token} {cond : Run} (hcond : readCondition last ts = (cond, none)) :
      BranchRead last ts (cond, [], .nothing) none
  | badBlock {ts : List Token} {cond : Run} {afterCond : Left ts.length} {body : List Stmt}
      (hcond : readCondition last ts = (cond, some afterCond))
      (hblock : BlockRead last afterCond.1 body none) :
      BranchRead last ts (cond, body, .nothing) none
  | ok {ts : List Token} {cond : Run} {afterCond : Left ts.length} {body : List Stmt}
      {afterBody : List Token} {otherwise : Else} {rest : Option (List Token)}
      (hcond : readCondition last ts = (cond, some afterCond))
      (hblock : BlockRead last afterCond.1 body (some afterBody))
      (helse : ElseRead last afterBody otherwise rest) :
      BranchRead last ts (cond, body, otherwise) rest

/-- The ways to read what follows the block of a test. -/
inductive ElseRead (last : Nat) : List Token → Else → Option (List Token) → Prop where
  | nothing {ts : List Token} (hafter : afterTest ts = .nothing) :
      ElseRead last ts .nothing (some ts)
  | test {ts : List Token} {after : Left ts.length} {cond : Run} {body : List Stmt}
      {otherwise : Else} {rest : Option (List Token)} (hafter : afterTest ts = .test after)
      (hbranch : BranchRead last after.1 (cond, body, otherwise) rest) :
      ElseRead last ts (.branch cond body otherwise) rest
  | block {ts : List Token} {after : Left ts.length} {body : List Stmt}
      {rest : Option (List Token)} (hafter : afterTest ts = .block after)
      (hblock : BlockRead last after.1 body rest) : ElseRead last ts (.block body) rest

end

mutual

/-- The relation is what the reader of statements does. -/
theorem StmtRead.eq {ts : List Token} {s : Stmt} {rest : Option (List Token)} :
    StmtRead last ts s rest → plain (readStmt last ts) = (s, rest)
  | .nil hrun => by
    obtain ⟨_, hread, rfl⟩ := eq_of_plainRun hrun.eq
    rw [readStmt, hread]
    exact plain_map_run
  | .declare hty hdecl => by
    unfold readStmt
    simp only [hty, hdecl, if_true]
    rfl
  | .badDeclaration hty hdecl => by
    unfold readStmt
    simp only [hty, hdecl, if_true]
    rfl
  | .ret hk => by
    unfold readStmt
    simp only [hk]
    rfl
  | .retValue hk hne hrun => by
    obtain ⟨_, hread, rfl⟩ := eq_of_plainRun hrun.eq
    unfold readStmt
    simp only [hk, hread]
    exact plain_map_run
  | .branch hk hbranch => by
    obtain ⟨_, hread, rfl⟩ := eq_of_plain hbranch.eq
    unfold readStmt
    simp only [hk, hread]
    exact plain_map
  | .badLoop hk hcond => by
    unfold readStmt
    simp only [hk, hcond]
    rfl
  | .loop hk hcond hblock => by
    obtain ⟨_, hread, rfl⟩ := eq_of_plain hblock.eq
    unfold readStmt
    simp only [hk, hcond, hread]
    exact plain_map
  | .leave hk hend => by
    unfold readStmt
    simp only [hk, hend]
    exact plain_map
  | .again hk hend => by
    unfold readStmt
    simp only [hk, hend]
    exact plain_map
  | .expr hty hrun hret hif hwhile hbreak hcontinue => by
    obtain ⟨_, hread, rfl⟩ := eq_of_plainRun hrun.eq
    unfold readStmt
    simp only [if_neg hty, hread]
    exact plain_map_run

/-- The relation is what the reader of blocks does. -/
theorem BlockRead.eq {ts : List Token} {body : List Stmt} {rest : Option (List Token)} :
    BlockRead last ts body rest → plain (readBlock last ts) = (body, rest)
  | .broken hbrace => by
    rw [readBlock, hbrace]
    rfl
  | .ok hbrace hrest => by
    obtain ⟨_, hread, rfl⟩ := eq_of_plain hrest.eq
    rw [readBlock, hbrace]
    dsimp only
    rw [hread]
    exact plain_map

/-- The relation is what the reader of block ends does. -/
theorem BlockRestRead.eq {ts : List Token} {body : List Stmt} {rest : Option (List Token)} :
    BlockRestRead last ts body rest → plain (readBlockRest last ts) = (body, rest)
  | .nil => by
    rw [readBlockRest]
    rfl
  | .ends hk => by
    rw [readBlockRest, if_pos hk]
    rfl
  | .broken hk hstmt => by
    obtain ⟨_, hread, hrest⟩ := eq_of_plain hstmt.eq
    obtain rfl := Option.map_eq_none_iff.1 hrest
    rw [readBlockRest, if_neg hk, hread]
    rfl
  | .more hk hstmt hrest => by
    obtain ⟨_, hread, hleft⟩ := eq_of_plain hstmt.eq
    obtain ⟨_, rfl⟩ := eq_some_of_map_val hleft
    obtain ⟨_, hread', rfl⟩ := eq_of_plain hrest.eq
    rw [readBlockRest, if_neg hk, hread]
    dsimp only
    rw [hread']
    exact plain_map

/-- The relation is what the reader of tests does. -/
theorem BranchRead.eq {ts : List Token} {b : Run × List Stmt × Else} {rest : Option (List Token)} :
    BranchRead last ts b rest → plain (readBranch last ts) = (b, rest)
  | .badCondition hcond => by
    rw [readBranch, hcond]
    rfl
  | .badBlock hcond hblock => by
    obtain ⟨_, hread, hleft⟩ := eq_of_plain hblock.eq
    obtain rfl := Option.map_eq_none_iff.1 hleft
    rw [readBranch, hcond]
    dsimp only
    rw [hread]
    rfl
  | .ok hcond hblock helse => by
    obtain ⟨_, hread, hleft⟩ := eq_of_plain hblock.eq
    obtain ⟨_, rfl⟩ := eq_some_of_map_val hleft
    obtain ⟨_, hread', rfl⟩ := eq_of_plain helse.eq
    rw [readBranch, hcond]
    dsimp only
    rw [hread]
    dsimp only
    rw [hread']
    exact plain_map

/-- The relation is what the reader of other branches does. -/
theorem ElseRead.eq {ts : List Token} {e : Else} {rest : Option (List Token)} :
    ElseRead last ts e rest → plain (readElse last ts) = (e, rest)
  | .nothing hafter => by
    rw [readElse, hafter]
    rfl
  | .test hafter hbranch => by
    obtain ⟨_, hread, rfl⟩ := eq_of_plain hbranch.eq
    rw [readElse, hafter]
    dsimp only
    rw [hread]
    exact plain_map
  | .block hafter hblock => by
    obtain ⟨_, hread, rfl⟩ := eq_of_plain hblock.eq
    rw [readElse, hafter]
    dsimp only
    rw [hread]
    exact plain_map

end

theorem StmtRead.self {s : Stmt} (h : StmtRead last ts s rest) :
    StmtRead last ts (readStmt last ts).1 ((readStmt last ts).2.map (·.1)) := by
  obtain ⟨_, hread, rfl⟩ := eq_of_plain h.eq
  rwa [hread]

theorem BlockRead.self {body : List Stmt} (h : BlockRead last ts body rest) :
    BlockRead last ts (readBlock last ts).1 ((readBlock last ts).2.map (·.1)) := by
  obtain ⟨_, hread, rfl⟩ := eq_of_plain h.eq
  rwa [hread]

theorem BlockRestRead.self {body : List Stmt} (h : BlockRestRead last ts body rest) :
    BlockRestRead last ts (readBlockRest last ts).1 ((readBlockRest last ts).2.map (·.1)) := by
  obtain ⟨_, hread, rfl⟩ := eq_of_plain h.eq
  rwa [hread]

theorem BranchRead.self {b : Run × List Stmt × Else} (h : BranchRead last ts b rest) :
    BranchRead last ts (readBranch last ts).1 ((readBranch last ts).2.map (·.1)) := by
  obtain ⟨_, hread, rfl⟩ := eq_of_plain h.eq
  rwa [hread]

theorem ElseRead.self {e : Else} (h : ElseRead last ts e rest) :
    ElseRead last ts (readElse last ts).1 ((readElse last ts).2.map (·.1)) := by
  obtain ⟨_, hread, rfl⟩ := eq_of_plain h.eq
  rwa [hread]

/-- **Each statement is read in one of these ways.** -/
theorem statements_read (last : Nat) :
    (∀ ts, StmtRead last ts (readStmt last ts).1 ((readStmt last ts).2.map (·.1))) ∧
    (∀ ts, BlockRead last ts (readBlock last ts).1 ((readBlock last ts).2.map (·.1))) ∧
    (∀ ts, BlockRestRead last ts (readBlockRest last ts).1
      ((readBlockRest last ts).2.map (·.1))) ∧
    (∀ ts, BranchRead last ts (readBranch last ts).1 ((readBranch last ts).2.map (·.1))) ∧
    ∀ ts, ElseRead last ts (readElse last ts).1 ((readElse last ts).2.map (·.1)) := by
  -- the cases of the recursion are the rules, one for one
  refine readStmt.mutual_induct last _ _ _ _ _ ?nil ?declare ?badDeclaration ?ret ?retValue
    ?branch ?badLoop ?loop ?leave ?again ?expr ?badBrace ?brace ?unended ?ends ?broken ?more
    ?badCondition ?badBlock ?ok ?nothing ?test ?block
  case nil =>
    intro e rest hrun
    exact (StmtRead.nil (readRun_read hrun)).self
  case declare =>
    intro t after hty d rest hdecl
    exact (StmtRead.declare hty hdecl).self
  case badDeclaration =>
    intro t after hty f hdecl
    exact (StmtRead.badDeclaration hty hdecl).self
  case ret =>
    intro t hty hk line rest
    exact (StmtRead.ret hk).self
  case retValue =>
    intro t hty hk after hne e rest hrun
    exact (StmtRead.retValue hk hne (readRun_read hrun)).self
  case branch =>
    intro t after hty hk cond body otherwise rest hbranch ih
    exact (StmtRead.branch hk ih).self
  case badLoop =>
    intro t after hty hk cond hcond
    exact (StmtRead.badLoop hk hcond).self
  case loop =>
    intro t after hty hk cond afterCond hcond body rest hblock ih
    exact (StmtRead.loop hk hcond ih).self
  case leave =>
    intro t after hty hk fault rest hend
    exact (StmtRead.leave hk hend).self
  case again =>
    intro t after hty hk fault rest hend
    exact (StmtRead.again hk hend).self
  case expr =>
    intro t after hty e rest hrun hret hif hwhile hbreak hcontinue
    exact (StmtRead.expr hty (readRun_read hrun) hret hif hwhile hbreak hcontinue).self
  case badBrace =>
    intro ts f hbrace
    exact (BlockRead.broken hbrace).self
  case brace =>
    intro ts after hbrace body rest hrest ih
    exact (BlockRead.ok hbrace ih).self
  case unended => exact BlockRestRead.nil.self
  case ends =>
    intro t after hk
    exact (BlockRestRead.ends hk).self
  case broken =>
    intro t after hk s hstmt ih
    rw [hstmt] at ih
    exact (BlockRestRead.broken hk ih).self
  case more =>
    intro t after hk s rest hstmt body rest' hrest ih ihrest
    rw [hstmt] at ih
    exact (BlockRestRead.more hk ih ihrest).self
  case badCondition =>
    intro ts cond hcond
    exact (BranchRead.badCondition hcond).self
  case badBlock =>
    intro ts cond afterCond hcond body hblock ih
    rw [hblock] at ih
    exact (BranchRead.badBlock hcond ih).self
  case ok =>
    intro ts cond afterCond hcond body afterBody hblock otherwise rest helse ih ihelse
    rw [hblock] at ih
    exact (BranchRead.ok hcond ih ihelse).self
  case nothing =>
    intro ts hafter
    exact (ElseRead.nothing hafter).self
  case test =>
    intro ts after hafter cond body otherwise rest hbranch ih
    exact (ElseRead.test hafter ih).self
  case block =>
    intro ts after hafter body rest hblock ih
    exact (ElseRead.block hafter ih).self

/-! ## §4. Items -/

/-- The ways to read the item that starts with a token. -/
inductive ItemRead (last : Nat) : Token → List Token → Item → Option (List Token) → Prop where
  | badImport {t : Token} {ts : List Token} {f : Fault} (hk : t.kind = .keyword .kwExtern)
      (hsig : readSignature last ts = .error f) : ItemRead last t ts (.broken f) none
  | importHead {t : Token} {ts : List Token} {sig : Signature} (hk : t.kind = .keyword .kwExtern)
      (hsig : readSignature last ts = .ok (sig, none)) :
      ItemRead last t ts (.imported sig none) none
  | imported {t : Token} {ts : List Token} {sig : Signature} {after : Left ts.length}
      {fault : Option Fault} {rest : Option (Left after.1.length)}
      (hk : t.kind = .keyword .kwExtern) (hsig : readSignature last ts = .ok (sig, some after))
      (hend : readImportEnd last after.1 = (fault, rest)) :
      ItemRead last t ts (.imported sig fault) (rest.map (·.1))
  | badFunction {t : Token} {ts : List Token} {f : Fault} (hk : ¬ t.kind = .keyword .kwExtern)
      (hstarts : startsFunction (t :: ts) = true)
      (hsig : readSignature last (t :: ts) = .error f) : ItemRead last t ts (.broken f) none
  | functionHead {t : Token} {ts : List Token} {sig : Signature}
      (hk : ¬ t.kind = .keyword .kwExtern) (hstarts : startsFunction (t :: ts) = true)
      (hsig : readSignature last (t :: ts) = .ok (sig, none)) :
      ItemRead last t ts (.function sig .none) none
  | function {t : Token} {ts : List Token} {sig : Signature} {after : Left (t :: ts).length}
      {body : Body} {rest : Option (Left after.1.length)} (hk : ¬ t.kind = .keyword .kwExtern)
      (hstarts : startsFunction (t :: ts) = true)
      (hsig : readSignature last (t :: ts) = .ok (sig, some after))
      (hbody : readBody last after.1 = (body, rest)) :
      ItemRead last t ts (.function sig body) (rest.map (·.1))
  | badGlobal {t : Token} {ts : List Token} {f : Fault} (hk : ¬ t.kind = .keyword .kwExtern)
      (hstarts : ¬ startsFunction (t :: ts) = true) (hty : t.kind.isType = true)
      (hdecl : readDeclaration last (t :: ts) = .error f) : ItemRead last t ts (.broken f) none
  | global {t : Token} {ts : List Token} {d : Declaration} {rest : Option (Left (t :: ts).length)}
      (hk : ¬ t.kind = .keyword .kwExtern) (hstarts : ¬ startsFunction (t :: ts) = true)
      (hty : t.kind.isType = true) (hdecl : readDeclaration last (t :: ts) = .ok (d, rest)) :
      ItemRead last t ts (.global d) (rest.map (·.1))
  | other {t : Token} {ts : List Token} (hk : ¬ t.kind = .keyword .kwExtern)
      (hstarts : ¬ startsFunction (t :: ts) = true) (hty : ¬ t.kind.isType = true) :
      ItemRead last t ts (.broken (.notDeclaration t)) none

/-- The relation is what the reader of items does. -/
theorem ItemRead.eq {i : Item} (h : ItemRead last t ts i rest) :
    plain (readItem last t ts) = (i, rest) := by
  cases h with
  | badImport hk hsig | importHead hk hsig =>
    rw [readItem, if_pos hk, readImport, hsig]
    rfl
  | imported hk hsig hend =>
    rw [readItem, if_pos hk, readImport, hsig]
    dsimp only
    rw [hend, Option.map_map]
    exact plain_map
  | badFunction hk hstarts hsig | functionHead hk hstarts hsig =>
    rw [readItem, if_neg hk, if_pos hstarts, readFunction, hsig]
    rfl
  | function hk hstarts hsig hbody =>
    rw [readItem, if_neg hk, if_pos hstarts, readFunction, hsig]
    dsimp only
    rw [hbody]
    exact plain_map
  | badGlobal hk hstarts hty hdecl | global hk hstarts hty hdecl =>
    rw [readItem, if_neg hk, if_neg hstarts, if_pos hty, readGlobal, hdecl]
    rfl
  | other hk hstarts hty =>
    rw [readItem, if_neg hk, if_neg hstarts, if_neg hty]
    rfl

theorem ItemRead.self {i : Item} (h : ItemRead last t ts i rest) :
    ItemRead last t ts (readItem last t ts).1 ((readItem last t ts).2.map (·.1)) := by
  obtain ⟨_, hread, rfl⟩ := eq_of_plain h.eq
  rwa [hread]

/-- Every item is read by one of the rules. -/
theorem readItem_read (last : Nat) (t : Token) (ts : List Token) :
    ItemRead last t ts (readItem last t ts).1 ((readItem last t ts).2.map (·.1)) := by
  by_cases hk : t.kind = .keyword .kwExtern
  · cases hsig : readSignature last ts with
    | error f => exact (ItemRead.badImport hk hsig).self
    | ok r =>
      obtain ⟨sig, rest⟩ := r
      cases rest with
      | none => exact (ItemRead.importHead hk hsig).self
      | some after => exact (ItemRead.imported hk hsig rfl).self
  by_cases hstarts : startsFunction (t :: ts) = true
  · cases hsig : readSignature last (t :: ts) with
    | error f => exact (ItemRead.badFunction hk hstarts hsig).self
    | ok r =>
      obtain ⟨sig, rest⟩ := r
      cases rest with
      | none => exact (ItemRead.functionHead hk hstarts hsig).self
      | some after => exact (ItemRead.function hk hstarts hsig rfl).self
  by_cases hty : t.kind.isType = true
  · cases hdecl : readDeclaration last (t :: ts) with
    | error f => exact (ItemRead.badGlobal hk hstarts hty hdecl).self
    | ok r => exact (ItemRead.global hk hstarts hty hdecl).self
  · exact (ItemRead.other hk hstarts hty).self

/-- The ways to read the items of a program. -/
inductive ItemsRead (last : Nat) : List Token → List Item → Prop where
  | nil : ItemsRead last [] []
  | broken {t : Token} {ts : List Token} {i : Item} (hitem : ItemRead last t ts i none) :
      ItemsRead last (t :: ts) [i]
  | more {t : Token} {ts rest : List Token} {i : Item} {is : List Item}
      (hitem : ItemRead last t ts i (some rest)) (hmore : ItemsRead last rest is) :
      ItemsRead last (t :: ts) (i :: is)

/-- The relation is what the reader of programs does. -/
theorem ItemsRead.eq {is : List Item} (h : ItemsRead last ts is) : readItems last ts = is := by
  induction h with
  | nil => rw [readItems]
  | broken hitem =>
    obtain ⟨_, hread, hrest⟩ := eq_of_plain hitem.eq
    obtain rfl := Option.map_eq_none_iff.1 hrest
    rw [readItems, hread]
  | more hitem _ ih =>
    obtain ⟨_, hread, hrest⟩ := eq_of_plain hitem.eq
    obtain ⟨_, rfl⟩ := eq_some_of_map_val hrest
    rw [readItems, hread]
    exact congrArg _ ih

/-- **Each program is read in one of these ways.** -/
theorem readItems_read (last : Nat) (ts : List Token) : ItemsRead last ts (readItems last ts) := by
  induction ts using readItems.induct last with
  | case1 =>
    rw [readItems]
    exact .nil
  | case2 t ts i hread =>
    have hitem := readItem_read last t ts
    rw [hread] at hitem
    rw [readItems, hread]
    exact .broken hitem
  | case3 t ts i rest hread ih =>
    have hitem := readItem_read last t ts
    rw [hread] at hitem
    rw [readItems, hread]
    exact .more hitem ih

end MiniC.Outline
