/-
  MiniC.Proofs.Termination.Demand

  Reading a text on demand.

  Here a text is not taken apart into tokens first.  A token is scanned where
  it is wanted; looking ahead scans it and goes back; at the end of the text the
  end is found again and again.  The functions below call each other as long
  as they see fit, and nothing in them counts down: each is the least solution
  of its equation, which has no value (`none`) where reading goes on forever.

  A loop is a function for one of its turns, and a function that takes turns
  until one is the last.
-/
import MiniC.Outline.Items

namespace MiniC.Demand

/-! ## §1. Loops -/

/-- What one turn of a loop comes to, with the state of the loop at the next. -/
inductive Turn (σ β : Type) where
  /-- It was the last one. -/
  | ends (result : β)
  /-- What comes of the turns to follow is part of the result. -/
  | goesOn (wrap : β → β) (state : σ)

/-- The loop takes its turns until one is the last. -/
def Loop {σ β : Type} (turn : σ → Option (Turn σ β)) (loop : σ → Option β) : Prop :=
  ∀ s, loop s = do
    match ← turn s with
    | .ends r => return r
    | .goesOn wrap s => return wrap (← loop s)

namespace Loop

variable {σ β : Type} {turn : σ → Option (Turn σ β)} {loop : σ → Option β} {s s' : σ}

theorem of_ends {r : β} (h : Loop turn loop) (hturn : turn s = some (.ends r)) :
    loop s = some r := by
  rw [h, hturn]
  rfl

theorem of_goesOn {wrap : β → β} (h : Loop turn loop) (hturn : turn s = some (.goesOn wrap s')) :
    loop s = do return wrap (← loop s') := by
  rw [h, hturn]
  rfl

end Loop

/-- A turn that is not the last leaves a state of a size below `n`. -/
def Turn.Below {σ β : Type} (size : σ → Nat) (n : Nat) : Turn σ β → Prop
  | .ends _ => True
  | .goesOn _ s => size s < n

/-- A loop whose turns end, and leave smaller and smaller states. -/
structure Ends {σ β : Type} (size : σ → Nat) (turn : σ → Option (Turn σ β))
    (loop : σ → Option β) : Prop where
  turns : Loop turn loop
  shrinks (s : σ) : ∃ t, turn s = some t ∧ t.Below size (size s)

end MiniC.Demand

namespace MiniC.Scan.Place

open Demand (Turn)
open Outline (Node Run Args Initial Declaration Param Signature Body Stop ParamEnd baseTy?
  operator?)

/-! ## §2. Single tokens -/

/-- How many characters are still to be read. -/
def unread (p : Place) : Nat := p.rest.length

/-- The token at a place. -/
def ahead (p : Place) : Token := (scan p).1

/-- The place after the token at a place. -/
def next (p : Place) : Place := (scan p).2

/-- Takes a piece of punctuation. -/
def expect (k : Punct) (p : Place) : Except Fault Place :=
  if (ahead p).kind = .punct k then .ok (next p)
  else .error (.expected (.exactly k) (ahead p))

/-- Takes a name; its line comes with it. -/
def name (p : Place) : Except Fault ((String × Nat) × Place) :=
  match (ahead p).kind with
  | .identifier x => .ok ((x, (ahead p).line), next p)
  | _ => .error (.expected .anIdentifier (ahead p))

/-- Reading that may end in a fault, and need not end. -/
abbrev Step := ExceptT Fault Option

/-! ## §3. Types -/

/-- One star after a type. -/
def starsTurn (ty : Ty) (p : Place) : Turn (Ty × Place) (Ty × Place) :=
  if (ahead p).kind = .punct .star then .goesOn id (.pointer ty, next p)
  else .ends (ty, p)

/-- The stars after a type; each makes it a pointer. -/
def stars (ty : Ty) (p : Place) : Option (Ty × Place) :=
  match starsTurn ty p with
  | .ends r => some r
  | .goesOn wrap (ty, q) => do
    return wrap (← q |>.stars ty)
partial_fixpoint

/-- The name of a type. -/
def type (p : Place) : Step (Ty × Place) :=
  match baseTy? (ahead p).kind with
  | some base => stars base (next p)
  | none => throw (.expected .aType (ahead p))

/-- The type of a cast, after its opening parenthesis. -/
def cast (p : Place) : Step (Ty × Place) := do
  let (ty, q) ← type p
  let q ← expect .rparen q
  return (ty, q)

/-! ## §4. Expressions -/

mutual

/-- An element of an expression. -/
def node (operandBefore : Bool) (p : Place) : Option (Node × Option Place) :=
  match (ahead p).kind with
  | .integer n => some (.int n (ahead p).line, some (next p))
  | .float x => some (.float x (ahead p).line, some (next p))
  | .identifier x =>
    if (ahead (next p)).kind = .punct .lparen then do
      let (args, rest) ← next (next p) |>.arguments
      return (.call x (ahead p).line args, rest)
    else some (.name x (ahead p).line, some (next p))
  | .punct .lparen =>
    if (ahead (next p)).kind.isType then do
      match ← (cast (next p)).run with
      | .ok (ty, q) => return (.unary .cast (some ty) (ahead p).line, some q)
      | .error f => return (.broken f, none)
    else do
      let (inner, rest) ← next p |>.expr .paren false
      return (.group inner, rest.map next)
  | .punct k =>
    match operator? operandBefore k (ahead p).line with
    | some n => some (n, some (next p))
    | none => some (.broken (.unexpected (ahead p)), none)
  | _ => some (.broken (.unexpected (ahead p)), none)
partial_fixpoint

/-- One element of an expression, and a look at what follows it. -/
def exprTurn (stop : Stop) (operandBefore : Bool) (p : Place) :
    Option (Turn (Bool × Place) (Run × Option Place)) :=
  if stop.ends (ahead p).kind then
    some (.ends (.last (.broken (.expected .anExpression (ahead p))), none))
  else do
    match ← p |>.node operandBefore with
    | (n, none) => return .ends (.last n, none)
    | (n, some q) =>
      if stop.ends (ahead q).kind then return .ends (.last n, some q)
      else return .goesOn (fun r => (.more n r.1, r.2)) (n.isOperand, q)
partial_fixpoint

/-- An expression up to the token that ends it, which is not taken. -/
def expr (stop : Stop) (operandBefore : Bool) (p : Place) : Option (Run × Option Place) := do
  match ← p |>.exprTurn stop operandBefore with
  | .ends r => return r
  | .goesOn wrap (operandBefore, q) => return wrap (← q |>.expr stop operandBefore)
partial_fixpoint

/-- The arguments of a call, after its opening parenthesis. -/
def arguments (p : Place) : Option (Args × Option Place) :=
  if (ahead p).kind = .punct .rparen then some (.none, some (next p))
  else p |>.moreArguments
partial_fixpoint

/-- One argument, and what divides it from the next. -/
def argumentsTurn (p : Place) : Option (Turn Place (Args × Option Place)) := do
  match ← p |>.expr .argument false with
  | (e, none) => return .ends (.arg e .none, none)
  | (e, some q) =>
    if (ahead q).kind = .punct .comma then
      return .goesOn (fun r => (.arg e r.1, r.2)) (next q)
    else return .ends (.arg e .none, some (next q))
partial_fixpoint

/-- One argument and those after it. -/
def moreArguments (p : Place) : Option (Args × Option Place) := do
  match ← p |>.argumentsTurn with
  | .ends r => return r
  | .goesOn wrap q => return wrap (← q |>.moreArguments)
partial_fixpoint

end

/-! ## §5. Declarations -/

/-- One length in brackets. -/
def lengthsTurn (p : Place) : Option (Turn Place (List Run × Option Place)) :=
  if (ahead p).kind = .punct .lbracket then do
    match ← expr .bracket false (next p) with
    | (e, none) => return .ends ([e], none)
    | (e, some q) => return .goesOn (fun r => (e :: r.1, r.2)) (next q)
  else some (.ends ([], some p))

/-- The lengths in brackets after a name. -/
def lengths (p : Place) : Option (List Run × Option Place) := do
  match ← lengthsTurn p with
  | .ends r => return r
  | .goesOn wrap q => return wrap (← q |>.lengths)
partial_fixpoint

/-- What follows a declared name and its lengths: a value, or nothing, and the
semicolon. -/
def initial (p : Place) : Option (Initial × Option Place) :=
  if (ahead p).kind = .punct .eq then do
    let (e, rest) ← expr .semicolon false (next p)
    return (.value e, rest.map next)
  else
    match expect .semicolon p with
    | .ok q => some (.none, some q)
    | .error f => some (.broken f, none)

/-- The declaration of a variable, or why there is none. -/
def declaration (p : Place) : Step (Declaration × Option Place) := do
  let (base, afterTy) ← type p
  let ((x, line), afterName) ← name afterTy
  match ← lengths afterName with
  | (ls, none) => return (⟨base, x, line, ls, .none⟩, none)
  | (ls, some q) =>
    let (init, rest) ← initial q
    return (⟨base, x, line, ls, init⟩, rest)

/-! ## §6. Statements -/

/-- A condition in parentheses. -/
def condition (p : Place) : Option (Run × Option Place) :=
  match expect .lparen p with
  | .error f => some (.last (.broken f), none)
  | .ok q => do
    let (cond, rest) ← expr .paren false q
    return (cond, rest.map next)

/-- The semicolon after a jump, or the fault in its place. -/
def jumpEnd (p : Place) : Option Fault × Option Place :=
  match expect .semicolon p with
  | .ok q => (none, some q)
  | .error f => (some f, none)

mutual

/-- A statement. -/
def stmt (p : Place) : Option (Outline.Stmt × Option Place) :=
  if (ahead p).kind.isType then do
    match ← (declaration p).run with
    | .ok (d, rest) => return (.declare d, rest)
    | .error f => return (.broken f, none)
  else
    match (ahead p).kind with
    | .keyword .kwReturn =>
      if (ahead (next p)).kind = .punct .semicolon then
        some (.ret (ahead p).line, some (next (next p)))
      else do
        let (e, rest) ← expr .semicolon false (next p)
        return (.retValue e, rest.map next)
    | .keyword .kwIf => do
      let ((cond, body, other), rest) ← next p |>.branch
      return (.branch cond body other, rest)
    | .keyword .kwWhile => do
      match ← condition (next p) with
      | (cond, none) => return (.loop cond [], none)
      | (cond, some q) =>
        let (body, rest) ← q |>.block
        return (.loop cond body, rest)
    | .keyword .kwBreak => some (.leave (ahead p).line (jumpEnd (next p)).1, (jumpEnd (next p)).2)
    | .keyword .kwContinue =>
      some (.again (ahead p).line (jumpEnd (next p)).1, (jumpEnd (next p)).2)
    | _ => do
      let (e, rest) ← expr .semicolon false p
      return (.expr e, rest.map next)
partial_fixpoint

/-- A test and what depends on it, after the word that opens it. -/
def branch (p : Place) : Option ((Run × List Outline.Stmt × Outline.Else) × Option Place) := do
  match ← condition p with
  | (cond, none) => return ((cond, [], .nothing), none)
  | (cond, some q) =>
    match ← q |>.block with
    | (body, none) => return ((cond, body, .nothing), none)
    | (body, some q) =>
      let (other, rest) ← q |>.otherwise
      return ((cond, body, other), rest)
partial_fixpoint

/-- What follows the block of a test. -/
def otherwise (p : Place) : Option (Outline.Else × Option Place) :=
  if (ahead p).kind = .keyword .kwElse then
    if (ahead (next p)).kind = .keyword .kwIf then do
      let ((cond, body, other), rest) ← next (next p) |>.branch
      return (.branch cond body other, rest)
    else do
      let (body, rest) ← next p |>.block
      return (.block body, rest)
  else some (.nothing, some p)
partial_fixpoint

/-- A block with its braces. -/
def block (p : Place) : Option (List Outline.Stmt × Option Place) :=
  match expect .lbrace p with
  | .error f => some ([.broken f], none)
  | .ok q => q |>.blockRest
partial_fixpoint

/-- One statement of a block, or its end. -/
def blockTurn (p : Place) : Option (Turn Place (List Outline.Stmt × Option Place)) :=
  if (ahead p).kind = .punct .rbrace then some (.ends ([], some (next p)))
  else if (ahead p).kind = .endOfFile then
    some (.ends ([.broken (.expected (.exactly .rbrace) (ahead p))], none))
  else do
    match ← p |>.stmt with
    | (s, none) => return .ends ([s], none)
    | (s, some q) => return .goesOn (fun r => (s :: r.1, r.2)) q
partial_fixpoint

/-- A block after its opening brace. -/
def blockRest (p : Place) : Option (List Outline.Stmt × Option Place) := do
  match ← p |>.blockTurn with
  | .ends r => return r
  | .goesOn wrap q => return wrap (← q |>.blockRest)
partial_fixpoint

end

/-! ## §7. Items -/

/-- What follows a parameter. -/
def paramEnd (p : Place) : Except Fault (ParamEnd × Place) :=
  if (ahead p).kind = .punct .comma then .ok (.comma, next p)
  else if (ahead p).kind = .punct .rparen then .ok (.paren, next p)
  else .error (.expected (.either .comma .rparen) (ahead p))

/-- One parameter, and what follows it. -/
def paramsTurn (p : Place) : Option (Turn Place (List Param × Except Fault Place)) := do
  match ← (type p).run with
  | .error f => return .ends ([], .error f)
  | .ok (ty, afterTy) =>
    match name afterTy with
    | .error f => return .ends ([], .error f)
    | .ok ((x, line), afterName) =>
      match paramEnd afterName with
      | .error f => return .ends ([⟨ty, x, line⟩], .error f)
      | .ok (.comma, q) => return .goesOn (fun r => (⟨ty, x, line⟩ :: r.1, r.2)) q
      | .ok (.paren, q) => return .ends ([⟨ty, x, line⟩], .ok q)

/-- The parameters of a function from the first one on. -/
def params (p : Place) : Option (List Param × Except Fault Place) := do
  match ← paramsTurn p with
  | .ends r => return r
  | .goesOn wrap q => return wrap (← q |>.params)
partial_fixpoint

/-- The parameters of a function, after the opening parenthesis. -/
def paramList (p : Place) : Option (List Param × Except Fault Place) :=
  if (ahead p).kind = .punct .rparen then some ([], .ok (next p))
  else params p

/-- The head of a function, or why there is none. -/
def signature (p : Place) : Step (Signature × Option Place) := do
  let (ret, afterTy) ← type p
  let ((x, line), afterName) ← name afterTy
  let q ← expect .lparen afterName
  match ← paramList q with
  | (ps, .error f) => return (⟨ret, x, line, ps, some f⟩, none)
  | (ps, .ok rest) => return (⟨ret, x, line, ps, none⟩, some rest)

/-- The semicolon after a function of the host, or the fault in its place. -/
def importEnd (p : Place) : Option Fault × Option Place :=
  if (ahead p).kind = .punct .lbrace then (some ⟨.importWithBody, (ahead p).line⟩, none)
  else jumpEnd p

/-- What follows the head of a function. -/
def body (p : Place) : Option (Body × Option Place) :=
  if (ahead p).kind = .punct .semicolon then some (.none, some (next p))
  else if (ahead p).kind = .punct .lbrace then do
    let (b, rest) ← blockRest (next p)
    return (.block b, rest)
  else some (.broken (.expected (.either .semicolon .lbrace) (ahead p)), none)

/-- A name and an opening parenthesis stand here. -/
def startsCall (p : Place) : Bool :=
  match (ahead p).kind, (ahead (next p)).kind with
  | .identifier _, .punct .lparen => true
  | _, _ => false

/-- The head of a function stands here; nothing is taken. -/
def startsFunction (p : Place) : Option Bool :=
  if (ahead p).kind.isType then do
    let (_, q) ← stars .void (next p)
    return startsCall q
  else some false

/-- A function of the host, with the word that opens it. -/
def imported (p : Place) : Option (Outline.Item × Option Place) := do
  match ← (signature (next p)).run with
  | .error f => return (.broken f, none)
  | .ok (sig, none) => return (.imported sig none, none)
  | .ok (sig, some q) => return (.imported sig (importEnd q).1, (importEnd q).2)

/-- A function. -/
def function (p : Place) : Option (Outline.Item × Option Place) := do
  match ← (signature p).run with
  | .error f => return (.broken f, none)
  | .ok (sig, none) => return (.function sig .none, none)
  | .ok (sig, some q) =>
    let (b, rest) ← body q
    return (.function sig b, rest)

/-- A global variable. -/
def global (p : Place) : Option (Outline.Item × Option Place) := do
  match ← (declaration p).run with
  | .error f => return (.broken f, none)
  | .ok (d, rest) => return (.global d, rest)

/-- An item. -/
def item (p : Place) : Option (Outline.Item × Option Place) :=
  if (ahead p).kind = .keyword .kwExtern then imported p
  else do
    if ← startsFunction p then function p
    else if (ahead p).kind.isType then global p
    else return (.broken (.notDeclaration (ahead p)), none)

/-- One item, unless the text ends. -/
def itemsTurn (p : Place) : Option (Turn Place (List Outline.Item)) :=
  if (ahead p).kind = .endOfFile then some (.ends [])
  else do
    match ← item p with
    | (i, none) => return .ends [i]
    | (i, some q) => return .goesOn (i :: ·) q

/-- All items. -/
def items (p : Place) : Option (List Outline.Item) := do
  match ← itemsTurn p with
  | .ends is => return is
  | .goesOn wrap q => return wrap (← q |>.items)
partial_fixpoint

end MiniC.Scan.Place
