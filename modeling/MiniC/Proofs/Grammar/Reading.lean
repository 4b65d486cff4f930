/-
  MiniC.Proofs.Grammar.Reading

  **What can be derived is read without a fault.**

  For each kind of phrase it is said what reading makes of it, whatever follows
  (`reads`): the phrase is taken, what follows is left, and there is no fault in
  the outline.  Some phrases ask something of what follows: a name on its own
  has no parenthesis after it, a test has no second `else`.  That each rule of
  the grammar keeps this is a step of the reader for each word and phrase of
  the rule, from left to right.
-/
import MiniC.Proofs.Grammar.Derivations

namespace MiniC.Outline

open Computability
open Grammar (Phrase derived rules)

variable {last : Nat} {ts : List Token} {after : List Kind}
variable {k : Kind} {p : Punct} {x : String} {stop : Stop} {op : BinaryOp}

/-! ## §1. Single words -/

theorem kinds_eq_cons (h : kinds ts = k :: after) :
    ∃ line rest, ts = ⟨k, line⟩ :: rest ∧ kinds rest = after := by
  obtain ⟨t, rest, rfl, rfl, hrest⟩ := List.map_eq_cons_iff.1 h
  exact ⟨t.line, rest, rfl, hrest⟩

theorem expect_of_kinds (last : Nat) (h : kinds ts = .punct p :: after) :
    ∃ rest, expect last p ts = .ok rest ∧ kinds rest.1 = after := by
  obtain ⟨line, rest, rfl, hrest⟩ := kinds_eq_cons h
  exact ⟨.tail rest, if_pos rfl, hrest⟩

theorem readName_of_kinds (last : Nat) (h : kinds ts = .identifier x :: after) :
    ∃ line rest, readName last ts = .ok ((x, line), rest) ∧ kinds rest.1 = after := by
  obtain ⟨line, rest, rfl, hrest⟩ := kinds_eq_cons h
  exact ⟨line, .tail rest, rfl, hrest⟩

/-- The words do not go on with `k`. -/
def NotNext (k : Kind) (ks : List Kind) : Prop := ks.head? ≠ some k

theorem NotNext.ne {t : Token} (h : NotNext k (kinds (t :: ts))) : t.kind ≠ k := by
  intro hk
  exact h (congrArg some hk)

/-- The words of a type: its name and stars. -/
def typeWords : Language Kind :=
  {ks | ∃ k n, k.isType = true ∧ ks = k :: List.replicate n (.punct .star)}

/-- All stars are read, and nothing after them. -/
theorem readStars_of_kinds {n : Nat} (ty : Ty)
    (h : kinds ts = List.replicate n (.punct .star) ++ after)
    (hafter : NotNext (.punct .star) after) :
    ∃ ty' rest, readStars ty ts = (ty', rest) ∧ kinds rest.1 = after := by
  induction n generalizing ts ty with
  | zero =>
    refine ⟨ty, .all ts, ?_, h⟩
    cases ts with
    | nil => rfl
    | cons t ts =>
      have h : kinds (t :: ts) = after := h
      rw [← h] at hafter
      rw [readStars, if_neg hafter.ne]
  | succ n ih =>
    obtain ⟨line, ts, rfl, hts⟩ := kinds_eq_cons h
    obtain ⟨ty', rest, hread, hrest⟩ := ih (.pointer ty) hts
    refine ⟨ty', rest.succ, ?_, hrest⟩
    rw [readStars, if_pos rfl, hread]

/-- A word that opens a type is one. -/
theorem baseTy?_of_isType (h : k.isType = true) : ∃ ty, baseTy? k = some ty := by
  cases k with
  | keyword w =>
    cases w with
    | kwVoid => exact ⟨.void, rfl⟩
    | kwInt => exact ⟨.int, rfl⟩
    | kwFloat => exact ⟨.float, rfl⟩
    | _ => cases h
  | _ => cases h

/-- The words of a type are read as one. -/
theorem readTy_of_kinds (last : Nat) {ks : List Kind} (hks : ks ∈ typeWords)
    (h : kinds ts = ks ++ after) (hafter : NotNext (.punct .star) after) :
    ∃ ty rest, readTy last ts = .ok (ty, rest) ∧ kinds rest.1 = after := by
  obtain ⟨k, n, hk, rfl⟩ := hks
  obtain ⟨line, ts, rfl, hts⟩ := kinds_eq_cons h
  obtain ⟨base, hbase⟩ := baseTy?_of_isType hk
  obtain ⟨ty, rest, hread, hrest⟩ := readStars_of_kinds base hts hafter
  refine ⟨ty, rest.toLeft, ?_, hrest⟩
  rw [readTy]
  dsimp only
  rw [hbase]
  dsimp only
  rw [hread]

/-- The words of a cast are read up to its parenthesis. -/
theorem readCast_of_kinds (last : Nat) {ks : List Kind} (hks : ks ∈ typeWords)
    (h : kinds ts = ks ++ Kind.punct .rparen :: after) :
    ∃ ty rest, readCast last ts = .ok (ty, rest) ∧ kinds rest.1 = after := by
  obtain ⟨ty, rest, hty, hrest⟩ := readTy_of_kinds last hks h nofun
  obtain ⟨rest', hparen, hrest'⟩ := expect_of_kinds last hrest
  refine ⟨ty, rest.within rest', ?_, hrest'⟩
  rw [readCast, hty]
  dsimp only [bind, Except.bind]
  rw [hparen]
  rfl

theorem startsType_of_kinds {ks : List Kind} (hks : ks ∈ typeWords) (h : kinds ts = ks ++ after) :
    startsType ts = true := by
  obtain ⟨k, n, hk, rfl⟩ := hks
  obtain ⟨line, ts, rfl, _⟩ := kinds_eq_cons h
  exact hk

/-! ## §2. What is read of each phrase -/

/-- The word can begin an expression. -/
def beginsExpr : Kind → Bool
  | .integer _ | .float _ | .identifier _ => true
  | .punct p => p = .lparen || p = .minus || p = .star || p = .amp || p = .bang
  | _ => false

theorem isType_of_beginsExpr (h : beginsExpr k = true) : k.isType = false := by
  cases k with
  | keyword w => cases h
  | _ => rfl

/-- The signs that end an expression. -/
def closers : List Punct := [.semicolon, .rparen, .rbracket, .comma]

/-- What ends a run is a closing sign. -/
theorem closers_of_ends (h : stop.ends k = true) : ∃ p ∈ closers, k = .punct p := by
  cases stop with
  | semicolon => exact ⟨.semicolon, by decide, of_decide_eq_true h⟩
  | paren => exact ⟨.rparen, by decide, of_decide_eq_true h⟩
  | bracket => exact ⟨.rbracket, by decide, of_decide_eq_true h⟩
  | argument =>
    rcases Bool.or_eq_true_iff.1 h with h | h
    · exact ⟨.comma, by decide, of_decide_eq_true h⟩
    · exact ⟨.rparen, by decide, of_decide_eq_true h⟩

/-- What begins an expression ends no run. -/
theorem ends_of_beginsExpr (h : beginsExpr k = true) : ¬ stop.ends k = true := by
  intro hends
  obtain ⟨p, hp, rfl⟩ := closers_of_ends hends
  have hnone : ∀ p ∈ closers, beginsExpr (.punct p) = false := by decide
  rw [hnone p hp] at h
  cases h

/-- A binary operator ends no run. -/
theorem ends_of_binaryOp? (h : binaryOp? p = some op) : ¬ stop.ends (.punct p) = true := by
  intro hends
  obtain ⟨p', hp, heq⟩ := closers_of_ends hends
  cases heq
  have hnone : ∀ p ∈ closers, binaryOp? p = none := by decide
  rw [hnone p hp] at h
  cases h

/-- No parenthesis opens where a run ends. -/
theorem notNext_of_ends (h : stop.ends k = true) (ks : List Kind) :
    NotNext (.punct .lparen) (k :: ks) := by
  intro heq
  cases heq
  obtain ⟨p, hp, heq⟩ := closers_of_ends h
  cases heq
  exact absurd hp (by decide)

theorem notNext_of_binaryOp? (h : binaryOp? p = some op) (ks : List Kind) :
    NotNext (.punct .lparen) (.punct p :: ks) := by
  intro heq
  cases heq
  cases h

/-- A phrase in front of an expression, after its first word. -/
def ReadsUnary (last : Nat) (k : Kind) (ks : List Kind) : Prop :=
  ∀ (line : Nat) (ts : List Token) (after : List Kind), kinds ts = ks ++ after →
    ∃ op target rest, NodeRead last false ⟨k, line⟩ ts (.unary op target line) (some rest) ∧
      kinds rest = after

/-- An operand, after its first word; no parenthesis follows. -/
def ReadsOperand (last : Nat) (k : Kind) (ks : List Kind) : Prop :=
  ∀ (line : Nat) (ts : List Token) (after : List Kind), kinds ts = ks ++ after →
    NotNext (.punct .lparen) after →
    ∃ n rest, NodeRead last false ⟨k, line⟩ ts n (some rest) ∧ kinds rest = after ∧
      n.isOperand = true ∧ n.FaultsIn ∅

/-- An expression, up to a word that ends it. -/
def ReadsExpr (last : Nat) (ks : List Kind) : Prop :=
  ∀ (stop : Stop) (ts : List Token) (k : Kind) (after : List Kind), stop.ends k = true →
    kinds ts = ks ++ k :: after →
    ∃ r s rest, RunRead last stop false ts r (some (s, rest)) ∧ s.kind = k ∧
      kinds rest = after ∧ r.FaultsIn ∅

/-- Arguments, up to the parenthesis. -/
def ReadsArgs (last : Nat) (ks : List Kind) : Prop :=
  ∀ (ts : List Token) (after : List Kind), kinds ts = ks ++ Kind.punct .rparen :: after →
    ∃ args rest, ArgsRead last ts args (some rest) ∧ kinds rest = after ∧ args.FaultsIn ∅

/-- A declaration. -/
def ReadsDeclaration (last : Nat) (ks : List Kind) : Prop :=
  ∀ (ts : List Token) (after : List Kind), kinds ts = ks ++ after →
    startsFunction ts = false ∧
      ∃ d rest, readDeclaration last ts = .ok (d, some rest) ∧ kinds rest.1 = after ∧ d.FaultsIn ∅

/-- A block, after its opening brace. -/
def ReadsBlock (last : Nat) (ks : List Kind) : Prop :=
  ∀ (ts : List Token) (after : List Kind), kinds ts = ks ++ after →
    ∃ body rest, BlockRestRead last ts body (some rest) ∧ kinds rest = after ∧
      Stmt.AllFaultsIn ∅ body

/-- A test, after the word that opens it; no other branch follows. -/
def ReadsTest (last : Nat) (ks : List Kind) : Prop :=
  ∀ (ts : List Token) (after : List Kind), kinds ts = ks ++ after →
    NotNext (.keyword .kwElse) after →
    ∃ cond body otherwise rest, BranchRead last ts (cond, body, otherwise) (some rest) ∧
      kinds rest = after ∧
      cond.FaultsIn ∅ ∧ Stmt.AllFaultsIn ∅ body ∧ otherwise.FaultsIn ∅

/-- A statement; no other branch follows. -/
def ReadsStmt (last : Nat) (ks : List Kind) : Prop :=
  ∀ (ts : List Token) (after : List Kind), kinds ts = ks ++ after →
    NotNext (.keyword .kwElse) after →
    ∃ s rest, StmtRead last ts s (some rest) ∧ kinds rest = after ∧ s.FaultsIn ∅

/-- The head of a function. -/
def ReadsHead (last : Nat) (ks : List Kind) : Prop :=
  ∀ (ts : List Token) (after : List Kind), kinds ts = ks ++ after →
    startsFunction ts = true ∧
      ∃ sig rest, readSignature last ts = .ok (sig, some rest) ∧ kinds rest.1 = after ∧
        sig.fault = none

/-- An item, after its first word. -/
def ReadsItem (last : Nat) (k : Kind) (ks : List Kind) : Prop :=
  ∀ (line : Nat) (ts : List Token) (after : List Kind), kinds ts = ks ++ after →
    ∃ i rest, ItemRead last ⟨k, line⟩ ts i (some rest) ∧ kinds rest = after ∧ i.FaultsIn ∅

/-- A statement does not begin like this. -/
def endsStmts (k : Kind) : Bool := k = .punct .rbrace || k = .keyword .kwElse

/-- A type does not end the statements of a block. -/
theorem endsStmts_of_isType (h : k.isType = true) : endsStmts k = false := by
  cases k with
  | keyword w =>
    cases w with
    | kwElse => cases h
    | _ => rfl
  | _ => cases h

/-- What begins an expression does not end them. -/
theorem endsStmts_of_beginsExpr (h : beginsExpr k = true) : endsStmts k = false := by
  cases k with
  | punct p =>
    cases p with
    | rbrace => cases h
    | _ => rfl
  | keyword w => cases h
  | _ => rfl

/-- What is read of each kind of phrase, and how it begins. -/
def reads (last : Nat) : Phrase → Language Kind
  | .type => typeWords
  | .param => typeWords * Grammar.identifier
  | .binary => {ks | ∃ p op, binaryOp? p = some op ∧ ks = [.punct p]}
  | .unary => {ks | ∃ k ks', ks = k :: ks' ∧ beginsExpr k = true ∧ ReadsUnary last k ks'}
  | .operand => {ks | ∃ k ks', ks = k :: ks' ∧ beginsExpr k = true ∧ ReadsOperand last k ks'}
  | .expr => {ks | (∃ k ks', ks = k :: ks' ∧ beginsExpr k = true) ∧ ReadsExpr last ks}
  | .args => {ks | ReadsArgs last ks}
  | .declaration => {ks | (∃ k ks', ks = k :: ks' ∧ k.isType = true) ∧ ReadsDeclaration last ks}
  | .block => {ks | ∃ ks', ks = .punct .lbrace :: ks' ∧ ReadsBlock last ks'}
  | .test => {ks | ∃ ks', ks = .keyword .kwIf :: ks' ∧ ReadsTest last ks'}
  | .loop | .stmt => {ks | (∃ k ks', ks = k :: ks' ∧ endsStmts k = false) ∧ ReadsStmt last ks}
  | .head => {ks | (∃ k ks', ks = k :: ks' ∧ k.isType = true) ∧ ReadsHead last ks}
  | .imported | .function => {ks | ∃ k ks', ks = k :: ks' ∧ ReadsItem last k ks'}
  | .program => {ks | ∀ ts, kinds ts = ks → ∀ i ∈ readItems last ts, i.FaultsIn ∅}

/-! ## §3. Expressions -/

/-- Types are read as their rule says. -/
theorem reads_type : rules (reads last) .type ≤ reads last .type := by
  rintro _ ⟨_, hbase, stars, hstars, rfl⟩
  obtain ⟨l, rfl, hl⟩ := Language.mem_kstar.1 hstars
  obtain ⟨n, hn⟩ : ∃ n, l.flatten = List.replicate n (Kind.punct .star) := by
    refine ⟨_, List.eq_replicate_iff.2 ⟨rfl, fun k hk => ?_⟩⟩
    obtain ⟨x, hx, hk⟩ := List.mem_flatten.1 hk
    rw [show x = [.punct .star] from hl x hx] at hk
    exact List.mem_singleton.1 hk
  rw [hn]
  rcases hbase with (rfl | rfl) | rfl
  · exact ⟨_, n, rfl, rfl⟩
  · exact ⟨_, n, rfl, rfl⟩
  · exact ⟨_, n, rfl, rfl⟩

theorem reads_binary : rules (reads last) .binary ≤ reads last .binary := by
  rintro _ ⟨p, hp, rfl⟩
  have hop : ∀ p ∈ Grammar.binarySigns, (binaryOp? p).isSome = true := by decide
  obtain ⟨op, hop⟩ := Option.isSome_iff_exists.1 (hop p hp)
  exact ⟨p, op, hop, rfl⟩

/-- A sign that is an operator in front. -/
theorem readsUnary_sign {op : UnaryOp} (hp : p ≠ .lparen)
    (h : ∀ line, operator? false p line = some (.unary op none line)) :
    ReadsUnary last (.punct p) [] := by
  intro line ts after hts
  exact ⟨op, none, ts, .operator hp rfl (h line), hts⟩

/-- Unary operators, casts among them, are read as their rule says. -/
theorem reads_unary : rules (reads last) .unary ≤ reads last .unary := by
  rintro ks ((((rfl | rfl) | rfl) | rfl) | ⟨_, ⟨_, rfl, ty, hty, rfl⟩, _, rfl, rfl⟩)
  · exact ⟨.punct .minus, [], rfl, rfl, readsUnary_sign nofun fun _ => rfl⟩
  · exact ⟨.punct .star, [], rfl, rfl, readsUnary_sign nofun fun _ => rfl⟩
  · exact ⟨.punct .amp, [], rfl, rfl, readsUnary_sign nofun fun _ => rfl⟩
  · exact ⟨.punct .bang, [], rfl, rfl, readsUnary_sign nofun fun _ => rfl⟩
  · refine ⟨.punct .lparen, ty ++ [Kind.punct .rparen], by simp, rfl, ?_⟩
    intro line ts after hts
    rw [List.append_assoc] at hts
    obtain ⟨target, rest, hcast, hrest⟩ := readCast_of_kinds last hty hts
    exact ⟨.cast, some target, rest.1, .cast rfl (startsType_of_kinds hty hts) hcast, hrest⟩

theorem reads_args_nil : ReadsArgs last [] := by
  intro ts after hts
  obtain ⟨line, rest, rfl, hrest⟩ := kinds_eq_cons hts
  exact ⟨.none, rest, .none, hrest, trivial⟩

/-- Operands are read as their rule says. -/
theorem reads_operand : rules (reads last) .operand ≤ reads last .operand := by
  rintro ks ((((⟨n, rfl⟩ | ⟨x, rfl⟩) | ⟨x, rfl⟩) |
    ⟨_, ⟨_, ⟨_, ⟨f, rfl⟩, _, rfl, rfl⟩, args, hargs, rfl⟩, _, rfl, rfl⟩) |
    ⟨_, ⟨_, rfl, inner, ⟨⟨k, ks, rfl, hk⟩, hinner⟩, rfl⟩, _, rfl, rfl⟩)
  · refine ⟨.integer n, [], rfl, rfl, fun line ts after hts _ => ?_⟩
    exact ⟨.int n line, ts, .int rfl, hts, rfl, trivial⟩
  · refine ⟨.float x, [], rfl, rfl, fun line ts after hts _ => ?_⟩
    exact ⟨.float x line, ts, .float rfl, hts, rfl, trivial⟩
  · refine ⟨.identifier x, [], rfl, rfl, fun line ts after hts hafter => ?_⟩
    refine ⟨.name x line, ts, .name rfl ?_, hts, rfl, trivial⟩
    -- with a parenthesis after it, the name would be read as a call
    rintro line' ts' rfl
    have hts : kinds (⟨.punct .lparen, line'⟩ :: ts') = after := hts
    rw [← hts] at hafter
    exact hafter.ne rfl
  · refine ⟨.identifier f, .punct .lparen :: (args ++ [Kind.punct .rparen]), by simp, rfl, ?_⟩
    intro line ts after hts _
    obtain ⟨line', ts, rfl, hts'⟩ := kinds_eq_cons hts
    obtain ⟨args, rest, hread, hrest, hfaults⟩ := hargs ts after (by simpa using hts')
    exact ⟨.call f line args, rest, .call rfl hread, hrest, rfl, hfaults⟩
  · refine ⟨.punct .lparen, (k :: ks) ++ [Kind.punct .rparen], by simp, rfl, ?_⟩
    intro line ts after hts _
    rw [List.append_assoc] at hts
    obtain ⟨inner, s, rest, hread, _, hrest, hfaults⟩ := hinner .paren ts _ after rfl hts
    -- what begins an expression is no type, so this is not read as a cast
    have hty : ¬ startsType ts = true := by
      obtain ⟨line', ts, rfl, _⟩ := kinds_eq_cons hts
      exact Bool.eq_false_iff.1 (isType_of_beginsExpr hk)
    exact ⟨.group inner, rest, .group rfl hty hread, hrest, rfl, hfaults⟩

/-- After an operand, a sign is an operator between two. -/
theorem nodeRead_binary (line : Nat) (h : binaryOp? p = some op) :
    NodeRead last true ⟨.punct p, line⟩ ts (.binary op line) (some ts) := by
  have hparen : p ≠ .lparen := by
    rintro rfl
    cases h
  have hop : operator? true p line = some (.binary op line) := by
    cases p <;> cases h <;> rfl
  exact .operator hparen rfl hop

/-- One element more at the front of a run. -/
theorem RunRead.of_node {ob : Bool} {line : Nat} {n : Node} {rest : List Token} {r : Run}
    {rest' : Option (Token × List Token)} (hk : ¬ stop.ends k = true)
    (hnode : NodeRead last ob ⟨k, line⟩ ts n (some rest))
    (hnext : ∃ k' ks, kinds rest = k' :: ks ∧ ¬ stop.ends k' = true)
    (hrun : RunRead last stop n.isOperand rest r rest') :
    RunRead last stop ob (⟨k, line⟩ :: ts) (.more n r) rest' := by
  obtain ⟨k', ks, hkinds, hk'⟩ := hnext
  obtain ⟨line', rest, rfl, _⟩ := kinds_eq_cons hkinds
  exact .more hk hnode hk' hrun

/-- Expressions are read as their rule says. -/
theorem reads_expr : rules (reads last) .expr ≤ reads last .expr := by
  -- from the left, as the elements are read
  refine Grammar.chain_le ?operand ?unary ?binary
  case operand =>
    rintro _ ⟨k, ks, rfl, hk, hread⟩
    refine ⟨⟨k, ks, rfl, hk⟩, fun stop ts k' after hends hts => ?_⟩
    obtain ⟨line, ts, rfl, hts'⟩ := kinds_eq_cons hts
    obtain ⟨n, rest, hnode, hrest, hn, hfaults⟩ :=
      hread line ts _ hts' (notNext_of_ends hends after)
    obtain ⟨line', rest, rfl, hrest'⟩ := kinds_eq_cons hrest
    exact ⟨.last n, ⟨k', line'⟩, rest, .last (ends_of_beginsExpr hk) hnode hends, rfl, hrest',
      hfaults, .inl (.last hn)⟩
  case unary =>
    rintro _ ⟨_, ⟨k, us, rfl, hk, hread⟩, _, ⟨⟨k₁, ks, rfl, hk₁⟩, hexpr⟩, rfl⟩
    refine ⟨⟨k, _, rfl, hk⟩, fun stop ts k' after hends hts => ?_⟩
    obtain ⟨line, ts, rfl, hts'⟩ := kinds_eq_cons hts
    obtain ⟨op, target, rest, hnode, hrest⟩ :=
      hread line ts (k₁ :: ks ++ k' :: after) (by simpa using hts')
    obtain ⟨r, s, rest', hrun, hs, hrest', hfaults⟩ := hexpr stop rest k' after hends hrest
    refine ⟨.more (.unary op target line) r, s, rest', ?_, hs, hrest',
      ⟨trivial, hfaults.1⟩, .inl (.unary hfaults.2.shaped)⟩
    exact .of_node (ends_of_beginsExpr hk) hnode ⟨k₁, _, hrest, ends_of_beginsExpr hk₁⟩ hrun
  case binary =>
    rintro _ ⟨_, ⟨_, ⟨k, os, rfl, hk, hread⟩, _, ⟨p, op, hop, rfl⟩, rfl⟩, _,
      ⟨⟨k₁, ks, rfl, hk₁⟩, hexpr⟩, rfl⟩
    refine ⟨⟨k, _, rfl, hk⟩, fun stop ts k' after hends hts => ?_⟩
    obtain ⟨line, ts, rfl, hts'⟩ := kinds_eq_cons hts
    obtain ⟨n, rest, hnode, hrest, hn, hfaults⟩ :=
      hread line ts (.punct p :: (k₁ :: ks ++ k' :: after)) (by simpa using hts')
        (notNext_of_binaryOp? hop _)
    obtain ⟨line', rest, rfl, hrest'⟩ := kinds_eq_cons hrest
    obtain ⟨r, s, rest', hrun, hs, hafter, hfaults'⟩ := hexpr stop rest k' after hends hrest'
    -- from the back: the run, the operator before it, and the operand before that
    have hmore := RunRead.of_node (ends_of_binaryOp? hop) (nodeRead_binary line' hop)
      ⟨k₁, _, hrest', ends_of_beginsExpr hk₁⟩ hrun
    rw [← hn] at hmore
    have hall := RunRead.of_node (ends_of_beginsExpr hk) hnode
      ⟨_, _, hrest, ends_of_binaryOp? hop⟩ hmore
    exact ⟨_, s, _, hall, hs, hafter, ⟨hfaults, trivial, hfaults'.1⟩,
      .inl (.binary hn hfaults'.2.shaped)⟩

/-- Arguments that there are. -/
theorem reads_moreArgs : Grammar.commaSeparated (reads last .expr) ≤
    {ks | (∃ k ks', ks = k :: ks' ∧ beginsExpr k = true) ∧
      ∀ ts after, kinds ts = ks ++ Kind.punct .rparen :: after →
        ∃ args rest, MoreArgsRead last ts args (some rest) ∧ kinds rest = after ∧
          args.FaultsIn ∅} := by
  refine Grammar.commaSeparated_le ?last ?more
  case last =>
    rintro ks ⟨hbegin, hread⟩
    refine ⟨hbegin, fun ts after hts => ?_⟩
    obtain ⟨r, s, rest, hrun, hs, hrest, hfaults⟩ := hread .argument ts _ after rfl hts
    have hcomma : ¬ s.kind = .punct .comma := by
      rw [hs]
      nofun
    exact ⟨.arg r .none, rest, .last hrun hcomma, hrest, hfaults.1, hfaults.2, trivial⟩
  case more =>
    rintro _ ⟨_, ⟨_, ⟨⟨k, ks, rfl, hk⟩, hread⟩, _, rfl, rfl⟩, ks', ⟨_, hmore⟩, rfl⟩
    refine ⟨⟨k, _, rfl, hk⟩, fun ts after hts => ?_⟩
    obtain ⟨r, s, rest, hrun, hs, hrest, hfaults⟩ :=
      hread .argument ts (.punct .comma) (ks' ++ Kind.punct .rparen :: after) rfl
        (by simpa using hts)
    obtain ⟨args, rest', hargs, hrest', hfaults'⟩ := hmore rest after hrest
    exact ⟨.arg r args, rest', .comma hrun hs hargs, hrest', hfaults.1, hfaults.2, hfaults'⟩

/-- Arguments are read as their rule says. -/
theorem reads_args : rules (reads last) .args ≤ reads last .args := by
  rintro ks (rfl | hks)
  · exact reads_args_nil
  · obtain ⟨⟨k, ks', rfl, hk⟩, hread⟩ := reads_moreArgs hks
    intro ts after hts
    obtain ⟨args, rest, hargs, hrest, hfaults⟩ := hread ts after hts
    refine ⟨args, rest, .some ?_ hargs, hrest, hfaults⟩
    rintro line after rfl
    obtain rfl : Kind.punct .rparen = k := (List.cons.inj hts).1
    cases hk

/-! ## §4. Declarations -/

/-- The head of a function shows at the parenthesis after its name. -/
theorem startsFunction_of_kinds {ks : List Kind} (hks : ks ∈ typeWords)
    (h : kinds ts = ks ++ Kind.identifier x :: after) :
    startsFunction ts = decide (after.head? = some (.punct .lparen)) := by
  obtain ⟨k, n, hk, rfl⟩ := hks
  obtain ⟨line, ts, rfl, hts⟩ := kinds_eq_cons h
  obtain ⟨ty, rest, hread, hrest⟩ := readStars_of_kinds .void hts nofun
  have hskip : skipStars ts = rest.1 := by rw [skipStars_eq .void, hread]
  rw [startsFunction, startsType, hk, Bool.true_and, List.tail_cons, hskip]
  obtain ⟨line', rest, heq, hrest⟩ := kinds_eq_cons hrest
  rw [heq, ← hrest]
  cases rest with
  | nil => rfl
  | cons t rest =>
    by_cases ht : t.kind = .punct .lparen
    · obtain ⟨k, line⟩ := t
      cases ht
      rfl
    · have hne : (kinds (t :: rest)).head? ≠ some (.punct .lparen) := by
        intro heq
        exact ht (Option.some.inj heq)
      rw [decide_eq_false hne]
      unfold startsCall
      split
      · rename_i heq
        cases heq
        exact absurd rfl ht
      · rfl

/-- What follows a declared name. -/
def ReadsDeclared (last : Nat) (ks : List Kind) : Prop :=
  ∀ (ts : List Token) (after : List Kind), kinds ts = ks ++ after →
    ∃ es rest init rest', readLengths last ts = (es, some rest) ∧
      readInitial last rest.1 = (init, some rest') ∧ kinds rest'.1 = after ∧
      (∀ e ∈ es, e.FaultsIn ∅) ∧ init.FaultsIn ∅

/-- The signs that follow a declared name. -/
def declaredSigns : List Punct := [.lbracket, .eq, .semicolon]

/-- An initial value is read up to its semicolon. -/
theorem reads_initial {ks : List Kind}
    (h : ks ∈ Grammar.optional (Grammar.sign .eq * reads last .expr) * Grammar.sign .semicolon) :
    (∃ p ks', ks = .punct p :: ks' ∧ p ∈ declaredSigns ∧ p ≠ .lbracket) ∧
      ∀ ts after, kinds ts = ks ++ after →
        ∃ init rest, readInitial last ts = (init, some rest) ∧ kinds rest.1 = after ∧
          init.FaultsIn ∅ := by
  obtain ⟨_, rfl | ⟨_, rfl, e, ⟨_, hexpr⟩, rfl⟩, _, rfl, rfl⟩ := h
  · refine ⟨⟨.semicolon, [], rfl, by decide, by decide⟩, fun ts after hts => ?_⟩
    obtain ⟨rest, hsemi, hrest⟩ := expect_of_kinds last hts
    refine ⟨.none, rest, ?_, hrest, trivial⟩
    obtain ⟨line, ts, rfl, _⟩ := kinds_eq_cons hts
    rw [readInitial, hsemi]
    intro line' after' heq
    cases heq
  · refine ⟨⟨.eq, _, rfl, by decide, by decide⟩, fun ts after hts => ?_⟩
    obtain ⟨line, ts, rfl, hts'⟩ := kinds_eq_cons hts
    obtain ⟨r, s, rest, hrun, _, hrest, hfaults⟩ :=
      hexpr .semicolon ts (.punct .semicolon) after rfl (by simpa using hts')
    obtain ⟨hlt, hread⟩ := hrun.eq_some
    exact ⟨.value r, _, readInitial_value hread, hrest, hfaults⟩

/-- What stands after a declared name is read to its end. -/
theorem reads_declared :
    (Grammar.sign .lbracket * reads last .expr * Grammar.sign .rbracket)∗ *
      (Grammar.optional (Grammar.sign .eq * reads last .expr) * Grammar.sign .semicolon) ≤
    {ks | (∃ p ks', ks = .punct p :: ks' ∧ p ∈ declaredSigns) ∧ ReadsDeclared last ks} := by
  refine kstar_mul_le ?initial ?length
  case initial =>
    intro ks hks
    obtain ⟨⟨p, ks', rfl, hp, hne⟩, hread⟩ := reads_initial hks
    refine ⟨⟨p, ks', rfl, hp⟩, fun ts after hts => ?_⟩
    obtain ⟨init, rest, hinit, hrest, hfaults⟩ := hread ts after hts
    refine ⟨[], .all ts, init, rest, readLengths_none ?_, hinit, hrest, List.forall_mem_nil _,
      hfaults⟩
    rintro line after rfl
    obtain rfl : Punct.lbracket = p := by
      have hkind : Kind.punct .lbracket = .punct p := (List.cons.inj hts).1
      cases hkind
      rfl
    exact hne rfl
  case length =>
    rintro _ ⟨_, ⟨_, ⟨_, rfl, e, ⟨_, hexpr⟩, rfl⟩, _, rfl, rfl⟩, ks, ⟨_, hread⟩, rfl⟩
    refine ⟨⟨.lbracket, _, rfl, by decide⟩, fun ts after hts => ?_⟩
    obtain ⟨line, ts, rfl, hts'⟩ := kinds_eq_cons hts
    obtain ⟨r, s, rest, hrun, _, hrest, hfaults⟩ :=
      hexpr .bracket ts (.punct .rbracket) (ks ++ after) rfl (by simpa using hts')
    obtain ⟨hlt, hreadRun⟩ := hrun.eq_some
    obtain ⟨es, rest', init, rest'', hes, hinit, hrest'', hfaults', hfaults''⟩ :=
      hread rest after hrest
    exact ⟨r :: es, (Left.past ⟨rest, hlt⟩ rest').succ.toRest, init, rest'',
      readLengths_more hreadRun hes, hinit, hrest'', List.forall_mem_cons.2 ⟨hfaults, hfaults'⟩,
      hfaults''⟩

/-- Declarations are read as their rule says. -/
theorem reads_declaration : rules (reads last) .declaration ≤ reads last .declaration := by
  rintro _ ⟨_, ⟨_, ⟨_, ⟨ty, hty, _, ⟨x, rfl⟩, rfl⟩, lens, hlens, rfl⟩, init, hinit, rfl⟩,
    _, rfl, rfl⟩
  obtain ⟨⟨p, ks', heq, hp⟩, hread⟩ := reads_declared (Language.append_mem_mul hlens
    (Language.append_mem_mul hinit (Grammar.mem_sign .semicolon)))
  constructor
  · obtain ⟨k, n, hk, rfl⟩ := hty
    exact ⟨k, _, rfl, hk⟩
  · intro ts after hts
    have hts : kinds ts =
        ty ++ Kind.identifier x :: (lens ++ (init ++ [Kind.punct .semicolon]) ++ after) := by
      simpa using hts
    constructor
    · -- none of the signs that follow the name is a parenthesis
      rw [startsFunction_of_kinds hty hts, heq]
      refine decide_eq_false fun hparen => ?_
      cases hparen
      exact absurd hp (by decide)
    · obtain ⟨base, afterTy, hbase, hafterTy⟩ := readTy_of_kinds last hty hts nofun
      obtain ⟨line, afterName, hname, hafterName⟩ := readName_of_kinds last hafterTy
      obtain ⟨es, afterLens, init, rest, hes, hread, hrest, hlens, hfaults⟩ :=
        hread afterName.1 after hafterName
      refine ⟨⟨base, x, line, es, init⟩,
        afterTy.within (afterName.within (afterLens.within rest)), ?_, hrest, hlens, hfaults⟩
      rw [readDeclaration, hbase]
      dsimp only [bind, Except.bind]
      rw [hname]
      dsimp only
      rw [hes]
      dsimp only
      rw [hread]
      rfl

/-! ## §5. Statements -/

/-- A condition is read between its parentheses. -/
theorem readCondition_of_kinds {ks : List Kind} (hks : ReadsExpr last ks)
    (h : kinds ts = .punct .lparen :: (ks ++ Kind.punct .rparen :: after)) :
    ∃ cond rest, readCondition last ts = (cond, some rest) ∧ kinds rest.1 = after ∧
      cond.FaultsIn ∅ := by
  obtain ⟨rest, hparen, hrest⟩ := expect_of_kinds last h
  obtain ⟨r, s, rest', hrun, _, hrest', hfaults⟩ := hks .paren rest.1 _ after rfl hrest
  obtain ⟨hlt, hread⟩ := hrun.eq_some
  refine ⟨r, rest.within ⟨rest', hlt⟩, ?_, hrest', hfaults⟩
  rw [readCondition, hparen]
  dsimp only
  rw [hread]
  rfl

/-- A block is read from its brace on. -/
theorem readBlock_of_kinds {ks : List Kind} (hks : ReadsBlock last ks)
    (h : kinds ts = .punct .lbrace :: (ks ++ after)) :
    ∃ body rest, BlockRead last ts body (some rest) ∧ kinds rest = after ∧
      Stmt.AllFaultsIn ∅ body := by
  obtain ⟨rest, hbrace, hrest⟩ := expect_of_kinds last h
  obtain ⟨body, rest', hbody, hrest', hfaults⟩ := hks rest.1 after hrest
  exact ⟨body, rest', .ok hbrace hbody, hrest', hfaults⟩

/-- Statements are read up to the closing brace. -/
theorem reads_stmts : (reads last .stmt)∗ * Grammar.sign .rbrace ≤
    {ks | (∃ k ks', ks = k :: ks' ∧ k ≠ .keyword .kwElse) ∧ ReadsBlock last ks} := by
  refine kstar_mul_le ?brace ?stmt
  case brace =>
    rintro _ rfl
    refine ⟨⟨_, _, rfl, nofun⟩, fun ts after hts => ?_⟩
    obtain ⟨line, rest, rfl, hrest⟩ := kinds_eq_cons hts
    exact ⟨[], rest, .ends rfl, hrest, trivial⟩
  case stmt =>
    rintro _ ⟨_, ⟨⟨k, ks, rfl, hk⟩, hstmt⟩, _, ⟨⟨k', ks', rfl, hk'⟩, hblock⟩, rfl⟩
    -- neither a statement nor the brace begins like another branch of a test
    have hk := Bool.or_eq_false_iff.1 hk
    refine ⟨⟨k, _, rfl, of_decide_eq_false hk.2⟩, fun ts after hts => ?_⟩
    obtain ⟨s, rest, hread, hrest, hfaults⟩ := hstmt ts (k' :: ks' ++ after) (by simpa using hts)
      (fun heq => hk' (Option.some.inj heq))
    obtain ⟨body, rest', hbody, hrest', hfaults'⟩ := hblock rest after hrest
    obtain ⟨line, ts, rfl, _⟩ := kinds_eq_cons hts
    exact ⟨s :: body, rest', .more (of_decide_eq_false hk.1) hread hbody, hrest', hfaults,
      hfaults'⟩

theorem reads_block : rules (reads last) .block ≤ reads last .block := by
  rintro _ ⟨_, ⟨_, rfl, ks, hks, rfl⟩, _, rfl, rfl⟩
  have hread := (reads_stmts (Language.append_mem_mul hks (Grammar.mem_sign .rbrace))).2
  exact ⟨ks ++ [Kind.punct .rbrace], by simp, hread⟩

/-- The other branch is read if there is one. -/
theorem reads_else {ks : List Kind}
    (h : ks ∈ Grammar.optional (Grammar.keyword .kwElse * (reads last .test + reads last .block)))
    (hts : kinds ts = ks ++ after) (hafter : NotNext (.keyword .kwElse) after) :
    ∃ otherwise rest, ElseRead last ts otherwise (some rest) ∧ kinds rest = after ∧
      otherwise.FaultsIn ∅ := by
  obtain rfl | ⟨_, rfl, _, ⟨ks, rfl, htest⟩ | ⟨ks, rfl, hblock⟩, rfl⟩ := h
  · have hnothing : afterTest ts = .nothing := by
      cases ts with
      | nil => rfl
      | cons t ts =>
        have hts : kinds (t :: ts) = after := hts
        rw [← hts] at hafter
        simp [afterTest, hafter.ne]
    exact ⟨.nothing, ts, .nothing hnothing, hts, trivial⟩
  · obtain ⟨line, ts, rfl, hts'⟩ := kinds_eq_cons hts
    obtain ⟨line', ts, rfl, hts''⟩ := kinds_eq_cons hts'
    obtain ⟨cond, body, otherwise, rest, hread, hrest, hfaults⟩ := htest ts after hts'' hafter
    have htest : afterTest (⟨.keyword .kwElse, line⟩ :: ⟨.keyword .kwIf, line'⟩ :: ts) =
        .test (Left.tail ts).succ := rfl
    exact ⟨.branch cond body otherwise, rest, .test htest hread, hrest, hfaults⟩
  · obtain ⟨line, ts, rfl, hts'⟩ := kinds_eq_cons hts
    obtain ⟨body, rest, hread, hrest, hfaults⟩ := readBlock_of_kinds hblock hts'
    obtain ⟨line', ts, rfl, _⟩ := kinds_eq_cons hts'
    have hblock : afterTest (⟨.keyword .kwElse, line⟩ :: ⟨.punct .lbrace, line'⟩ :: ts) =
        .block (Left.tail (⟨.punct .lbrace, line'⟩ :: ts)) := rfl
    exact ⟨.block body, rest, .block hblock hread, hrest, hfaults⟩

/-- Tests are read as their rule says. -/
theorem reads_test : rules (reads last) .test ≤ reads last .test := by
  rintro _ ⟨_, ⟨_, ⟨_, ⟨_, ⟨_, rfl, _, rfl, rfl⟩, c, ⟨_, hexpr⟩, rfl⟩, _, rfl, rfl⟩, _,
    ⟨b, rfl, hblock⟩, rfl⟩, o, helse, rfl⟩
  refine ⟨.punct .lparen :: (c ++ Kind.punct .rparen :: .punct .lbrace :: (b ++ o)), by simp, ?_⟩
  intro ts after hts hafter
  have hts : kinds ts = .punct .lparen ::
      (c ++ Kind.punct .rparen :: (.punct .lbrace :: (b ++ (o ++ after)))) := by simpa using hts
  obtain ⟨cond, afterCond, hcond, hafterCond, hfaults⟩ := readCondition_of_kinds hexpr hts
  obtain ⟨body, afterBody, hbody, hafterBody, hfaults'⟩ := readBlock_of_kinds hblock hafterCond
  obtain ⟨otherwise, rest, hread, hrest, hfaults''⟩ := reads_else helse hafterBody hafter
  exact ⟨cond, body, otherwise, rest, .ok hcond hbody hread, hrest, hfaults, hfaults', hfaults''⟩

/-- Loops are read as their rule says. -/
theorem reads_loop : rules (reads last) .loop ≤ reads last .loop := by
  rintro _ ⟨_, ⟨_, ⟨_, ⟨_, rfl, _, rfl, rfl⟩, c, ⟨_, hexpr⟩, rfl⟩, _, rfl, rfl⟩, _,
    ⟨b, rfl, hblock⟩, rfl⟩
  refine ⟨⟨.keyword .kwWhile, _, rfl, rfl⟩, fun ts after hts _ => ?_⟩
  obtain ⟨line, ts, rfl, hts'⟩ := kinds_eq_cons hts
  have hts : kinds ts = .punct .lparen ::
      (c ++ Kind.punct .rparen :: (.punct .lbrace :: (b ++ after))) := by simpa using hts'
  obtain ⟨cond, afterCond, hcond, hafterCond, hfaults⟩ := readCondition_of_kinds hexpr hts
  obtain ⟨body, rest, hbody, hrest, hfaults'⟩ := readBlock_of_kinds hblock hafterCond
  exact ⟨.loop cond body, rest, .loop rfl hcond hbody, hrest, hfaults, hfaults'⟩

theorem readJumpEnd_of_kinds (last : Nat) (h : kinds ts = .punct .semicolon :: after) :
    ∃ rest, readJumpEnd last ts = (none, some rest) ∧ kinds rest.1 = after := by
  obtain ⟨rest, hsemi, hrest⟩ := expect_of_kinds last h
  refine ⟨rest, ?_, hrest⟩
  rw [readJumpEnd, hsemi]

/-- Statements are read as their rule says. -/
theorem reads_stmt : rules (reads last) .stmt ≤ reads last .stmt := by
  rintro ks ((((((hdecl | ⟨_, ⟨_, rfl, e, hret, rfl⟩, _, rfl, rfl⟩) | ⟨ks, rfl, htest⟩) | hloop) |
    ⟨_, rfl, _, rfl, rfl⟩) | ⟨_, rfl, _, rfl, rfl⟩) | ⟨e, hexpr, _, rfl, rfl⟩)
  · obtain ⟨⟨k, ks', rfl, hk⟩, hread⟩ := hdecl
    refine ⟨⟨k, ks', rfl, endsStmts_of_isType hk⟩, fun ts after hts _ => ?_⟩
    obtain ⟨_, d, rest, hdecl, hrest, hfaults⟩ := hread ts after hts
    obtain ⟨line, ts, rfl, _⟩ := kinds_eq_cons hts
    exact ⟨.declare d, rest.1, .declare hk hdecl, hrest, hfaults⟩
  · refine ⟨⟨_, _, rfl, rfl⟩, fun ts after hts _ => ?_⟩
    obtain ⟨line, ts, rfl, hts'⟩ := kinds_eq_cons hts
    rcases hret with rfl | ⟨⟨k, ks, rfl, hk⟩, hexpr⟩
    · obtain ⟨line', ts, rfl, hrest⟩ := kinds_eq_cons hts'
      exact ⟨.ret line, ts, .ret rfl, hrest, trivial⟩
    · obtain ⟨r, s, rest, hrun, _, hrest, hfaults⟩ :=
        hexpr .semicolon ts (.punct .semicolon) after rfl (by simpa using hts')
      have hne : ∀ line' rest, ts = ⟨.punct .semicolon, line'⟩ :: rest → False := by
        rintro line' rest rfl
        obtain rfl : Kind.punct .semicolon = k := (List.cons.inj hts').1
        cases hk
      exact ⟨.retValue r, rest, .retValue rfl hne hrun, hrest, hfaults⟩
  · refine ⟨⟨_, _, rfl, rfl⟩, fun ts after hts hafter => ?_⟩
    obtain ⟨line, ts, rfl, hts'⟩ := kinds_eq_cons hts
    obtain ⟨cond, body, otherwise, rest, hread, hrest, hfaults⟩ := htest ts after hts' hafter
    exact ⟨.branch cond body otherwise, rest, .branch rfl hread, hrest, hfaults⟩
  · exact hloop
  · refine ⟨⟨_, _, rfl, rfl⟩, fun ts after hts _ => ?_⟩
    obtain ⟨line, ts, rfl, hts'⟩ := kinds_eq_cons hts
    obtain ⟨rest, hend, hrest⟩ := readJumpEnd_of_kinds last hts'
    exact ⟨.leave line none, rest.1, .leave rfl hend, hrest, faultIn_none ∅⟩
  · refine ⟨⟨_, _, rfl, rfl⟩, fun ts after hts _ => ?_⟩
    obtain ⟨line, ts, rfl, hts'⟩ := kinds_eq_cons hts
    obtain ⟨rest, hend, hrest⟩ := readJumpEnd_of_kinds last hts'
    exact ⟨.again line none, rest.1, .again rfl hend, hrest, faultIn_none ∅⟩
  · obtain ⟨⟨k, ks, rfl, hk⟩, hexpr⟩ := hexpr
    refine ⟨⟨k, _, rfl, endsStmts_of_beginsExpr hk⟩, fun ts after hts _ => ?_⟩
    obtain ⟨r, s, rest, hrun, _, hrest, hfaults⟩ :=
      hexpr .semicolon ts (.punct .semicolon) after rfl (by simpa using hts)
    obtain ⟨line, ts, rfl, _⟩ := kinds_eq_cons hts
    have hword : ∀ w, k = .keyword w → False := by
      rintro w rfl
      cases hk
    have hstmt := StmtRead.expr (Bool.eq_false_iff.1 (isType_of_beginsExpr hk)) hrun
      (hword _) (hword _) (hword _) (hword _) (hword _)
    exact ⟨.expr r, rest, hstmt, hrest, hfaults⟩

/-! ## §6. Items -/

/-- A parameter and what follows it. -/
theorem readParam_of_kinds (last : Nat) (e : ParamEnd) {ks : List Kind} (hks : ks ∈ typeWords)
    (h : kinds ts = ks ++ Kind.identifier x :: .punct e.word :: after) :
    ∃ ty afterTy line afterName rest, readTy last ts = .ok (ty, afterTy) ∧
      readName last afterTy.1 = .ok ((x, line), afterName) ∧
      readParamEnd last afterName.1 = .ok (e, rest) ∧ kinds rest.1 = after := by
  obtain ⟨ty, afterTy, hty, hafterTy⟩ := readTy_of_kinds last hks h nofun
  obtain ⟨line, ⟨afterName, hlt⟩, hname, hafterName⟩ := readName_of_kinds last hafterTy
  obtain ⟨line', rest, rfl, hrest⟩ := kinds_eq_cons hafterName
  refine ⟨ty, afterTy, line, ⟨_, hlt⟩, .tail rest, hty, hname, ?_, hrest⟩
  cases e <;> rfl

/-- Parameters are read up to the parenthesis. -/
theorem reads_params : Grammar.commaSeparated (reads last .param) ≤
    {ks | (∃ k ks', ks = k :: ks' ∧ k.isType = true) ∧
      ∀ ts after, kinds ts = ks ++ Kind.punct .rparen :: after →
        ∃ ps rest, readParams last ts = (ps, .ok rest) ∧ kinds rest.1 = after} := by
  refine Grammar.commaSeparated_le ?last ?more
  case last =>
    rintro _ ⟨_, ⟨k, n, hk, rfl⟩, _, ⟨x, rfl⟩, rfl⟩
    refine ⟨⟨k, _, rfl, hk⟩, fun ts after hts => ?_⟩
    obtain ⟨ty, afterTy, line, afterName, rest, hty, hname, hend, hrest⟩ :=
      readParam_of_kinds last .paren ⟨k, n, hk, rfl⟩ (by simpa [ParamEnd.word] using hts)
    exact ⟨[⟨ty, x, line⟩], afterTy.within (afterName.within rest),
      readParams_paren hty hname hend, hrest⟩
  case more =>
    rintro _ ⟨_, ⟨_, ⟨_, ⟨k, n, hk, rfl⟩, _, ⟨x, rfl⟩, rfl⟩, _, rfl, rfl⟩, ks, ⟨_, hmore⟩, rfl⟩
    refine ⟨⟨k, _, rfl, hk⟩, fun ts after hts => ?_⟩
    obtain ⟨ty, afterTy, line, afterName, rest, hty, hname, hend, hrest⟩ :=
      readParam_of_kinds last .comma ⟨k, n, hk, rfl⟩ (by simpa [ParamEnd.word] using hts)
    obtain ⟨ps, rest', hps, hrest'⟩ := hmore rest.1 after hrest
    exact ⟨⟨ty, x, line⟩ :: ps, afterTy.within (afterName.within (rest.within rest')),
      readParams_comma hty hname hend hps, hrest'⟩

/-- A list of parameters may be empty. -/
theorem reads_paramList {ks : List Kind}
    (hks : ks ∈ Grammar.optional (Grammar.commaSeparated (reads last .param)))
    (h : kinds ts = ks ++ Kind.punct .rparen :: after) :
    ∃ ps rest, readParamList last ts = (ps, .ok rest) ∧ kinds rest.1 = after := by
  rcases hks with rfl | hks
  · obtain ⟨line, rest, rfl, hrest⟩ := kinds_eq_cons h
    exact ⟨[], .tail rest, rfl, hrest⟩
  · obtain ⟨⟨k, ks', rfl, hk⟩, hread⟩ := reads_params hks
    obtain ⟨ps, rest, hps, hrest⟩ := hread ts after h
    refine ⟨ps, rest, ?_, hrest⟩
    unfold readParamList
    split
    · obtain rfl : Kind.punct .rparen = k := (List.cons.inj h).1
      cases hk
    · exact hps

/-- Heads of functions are read as their rule says. -/
theorem reads_head : rules (reads last) .head ≤ reads last .head := by
  rintro _ ⟨_, ⟨_, ⟨_, ⟨ty, hty, _, ⟨x, rfl⟩, rfl⟩, _, rfl, rfl⟩, ps, hps, rfl⟩, _, rfl, rfl⟩
  constructor
  · obtain ⟨k, n, hk, rfl⟩ := hty
    exact ⟨k, _, rfl, hk⟩
  · intro ts after hts
    have hts : kinds ts =
        ty ++ Kind.identifier x :: .punct .lparen :: (ps ++ Kind.punct .rparen :: after) := by
      simpa using hts
    refine ⟨by rw [startsFunction_of_kinds hty hts]; rfl, ?_⟩
    obtain ⟨ret, afterTy, hret, hafterTy⟩ := readTy_of_kinds last hty hts nofun
    obtain ⟨line, afterName, hname, hafterName⟩ := readName_of_kinds last hafterTy
    obtain ⟨afterParen, hparen, hafterParen⟩ := expect_of_kinds last hafterName
    obtain ⟨params, rest, hparams, hrest⟩ := reads_paramList hps hafterParen
    refine ⟨⟨ret, x, line, params, none⟩,
      afterTy.within (afterName.within (afterParen.within rest)), ?_, hrest, rfl⟩
    rw [readSignature, hret]
    dsimp only [bind, Except.bind]
    rw [hname]
    dsimp only
    rw [hparen]
    dsimp only
    rw [hparams]
    rfl

theorem readImportEnd_of_kinds (last : Nat) (h : kinds ts = .punct .semicolon :: after) :
    ∃ rest, readImportEnd last ts = (none, some rest) ∧ kinds rest.1 = after := by
  obtain ⟨rest, hend, hrest⟩ := readJumpEnd_of_kinds last h
  obtain ⟨line, ts, rfl, _⟩ := kinds_eq_cons h
  exact ⟨rest, hend, hrest⟩

/-- Imports are read as their rule says. -/
theorem reads_imported : rules (reads last) .imported ≤ reads last .imported := by
  rintro _ ⟨_, ⟨_, rfl, ks, ⟨_, hhead⟩, rfl⟩, _, rfl, rfl⟩
  refine ⟨.keyword .kwExtern, ks ++ [Kind.punct .semicolon], by simp, fun line ts after hts => ?_⟩
  obtain ⟨_, sig, afterHead, hread, hafterHead, hfault⟩ :=
    hhead ts (.punct .semicolon :: after) (by simpa using hts)
  obtain ⟨rest, himport, hrest⟩ := readImportEnd_of_kinds last hafterHead
  refine ⟨.imported sig none, rest.1, .imported rfl hread himport, hrest, ?_, faultIn_none ∅⟩
  rw [hfault]
  exact faultIn_none ∅

/-- Functions are read as their rule says. -/
theorem reads_function : rules (reads last) .function ≤ reads last .function := by
  rintro _ ⟨_, ⟨⟨k, ks, rfl, hk⟩, hhead⟩, body, hbody, rfl⟩
  refine ⟨k, ks ++ body, by simp, fun line ts after hts => ?_⟩
  obtain ⟨hstarts, sig, afterHead, hread, hafterHead, hfault⟩ :=
    hhead (⟨k, line⟩ :: ts) (body ++ after) (by simp [hts])
  obtain ⟨body, rest, hreadBody, hrest, hfaults⟩ : ∃ body rest,
      readBody last afterHead.1 = (body, some rest) ∧ kinds rest.1 = after ∧ body.FaultsIn ∅ := by
    obtain ⟨afterHead, hlt⟩ := afterHead
    rcases hbody with rfl | ⟨ks, rfl, hblock⟩
    · obtain ⟨line, rest, rfl, hrest⟩ := kinds_eq_cons hafterHead
      exact ⟨.none, .tail rest, by rw [readBody, if_pos rfl], hrest, trivial⟩
    · obtain ⟨line, rest, rfl, hrest⟩ := kinds_eq_cons hafterHead
      obtain ⟨ss, rest', hss, hrest', hfaults⟩ := hblock rest after hrest
      obtain ⟨left, hread, hleft⟩ := eq_of_plain hss.eq
      obtain ⟨hlt', rfl⟩ := eq_some_of_map_val hleft
      exact ⟨.block ss, _, readBody_block rfl hread, hrest', hfaults⟩
  have hextern : k ≠ .keyword .kwExtern := by
    rintro rfl
    cases hk
  refine ⟨.function sig body, rest.1, .function hextern hstarts hread hreadBody, hrest, ?_, hfaults⟩
  rw [hfault]
  exact faultIn_none ∅

/-- A declaration is an item, too. -/
theorem readsItem_of_declaration {ks : List Kind} (h : ks ∈ reads last .declaration) :
    ∃ k ks', ks = k :: ks' ∧ ReadsItem last k ks' := by
  obtain ⟨⟨k, ks, rfl, hk⟩, hdecl⟩ := h
  refine ⟨k, ks, rfl, fun line ts after hts => ?_⟩
  obtain ⟨hstarts, d, rest, hread, hrest, hfaults⟩ := hdecl (⟨k, line⟩ :: ts) after (by simp [hts])
  have hextern : k ≠ .keyword .kwExtern := by
    rintro rfl
    cases hk
  exact ⟨.global d, rest.1, .global hextern (Bool.eq_false_iff.1 hstarts) hk hread, hrest, hfaults⟩

/-- **Programs are read as their rule says**, item by item. -/
theorem reads_program : rules (reads last) .program ≤ reads last .program := by
  intro ks hks
  obtain ⟨l, rfl, hl⟩ := Language.mem_kstar.1 hks
  clear hks
  intro ts hts
  induction l generalizing ts with
  | nil =>
    cases ts with
    | nil =>
      rw [ItemsRead.nil.eq]
      exact List.forall_mem_nil _
    | cons t ts => cases hts
  | cons x l ih =>
    obtain ⟨hx, hrest⟩ := List.forall_mem_cons.1 hl
    obtain ⟨k, ks, rfl, hitem⟩ : ∃ k ks', x = k :: ks' ∧ ReadsItem last k ks' := by
      rcases hx with (himported | hfunction) | hdecl
      · exact himported
      · exact hfunction
      · exact readsItem_of_declaration hdecl
    obtain ⟨line, ts, rfl, hts'⟩ := kinds_eq_cons hts
    obtain ⟨i, rest, hread, hrest', hfaults⟩ := hitem line ts l.flatten hts'
    rw [(ItemsRead.more hread (readItems_read last rest)).eq]
    exact List.forall_mem_cons.2 ⟨hfaults, ih hrest rest hrest'⟩

/-- **Every rule is read as it says.** -/
theorem reads_of_rules (p : Phrase) : rules (reads last) p ≤ reads last p := by
  cases p with
  | program => exact reads_program
  | imported => exact reads_imported
  | function => exact reads_function
  | head => exact reads_head
  | param => exact le_rfl
  | type => exact reads_type
  | declaration => exact reads_declaration
  | stmt => exact reads_stmt
  | test => exact reads_test
  | loop => exact reads_loop
  | block => exact reads_block
  | expr => exact reads_expr
  | unary => exact reads_unary
  | binary => exact reads_binary
  | operand => exact reads_operand
  | args => exact reads_args

/-- **What can be derived is read without a fault.** -/
theorem faultsIn_readItems (h : kinds ts ∈ derived .program) (last : Nat) :
    ∀ i ∈ readItems last ts, i.FaultsIn ∅ :=
  Grammar.derived_le reads_of_rules .program h ts rfl

end MiniC.Outline
