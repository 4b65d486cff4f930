/-
  MiniC.Outline.Steps

  Single steps in reading a list of tokens.

  A step either takes something from the front of the list and says what is
  left, or names the fault.  What is left is shorter than what there was, and
  the type of a step says so: that is why reading a phrase of phrases ends.

  `last` is always the line on which the text ends.
-/
import MiniC.Outline

namespace MiniC.Outline

/-- Tokens that are left, fewer than `n`. -/
abbrev Left (n : Nat) := { ts : List Token // ts.length < n }

/-- Tokens that are left, at most `n`. -/
abbrev Rest (n : Nat) := { ts : List Token // ts.length ≤ n }

namespace Left

/-- What is left once the first token is taken. -/
def tail (ts : List Token) : Left (ts.length + 1) := ⟨ts, Nat.lt_succ_self _⟩

/-- What is left is fewer than one more, too. -/
def succ {n : Nat} (l : Left n) : Left (n + 1) := ⟨l.1, Nat.lt_succ_of_lt l.2⟩

/-- What is left of what is left. -/
def within {n : Nat} (outer : Left n) (l : Left outer.1.length) : Left n :=
  ⟨l.1, Nat.lt_trans l.2 outer.2⟩

/-- What is left, or all of it, of what is left. -/
def past {n : Nat} (outer : Left n) (r : Rest outer.1.length) : Left n :=
  ⟨r.1, Nat.lt_of_le_of_lt r.2 outer.2⟩

/-- Fewer is at most. -/
def toRest {n : Nat} (l : Left n) : Rest n := ⟨l.1, Nat.le_of_lt l.2⟩

end Left

namespace Rest

/-- Nothing is taken. -/
def all (ts : List Token) : Rest ts.length := ⟨ts, Nat.le_refl _⟩

/-- What is at most as many is at most one more. -/
def succ {n : Nat} (r : Rest n) : Rest (n + 1) := ⟨r.1, Nat.le_succ_of_le r.2⟩

/-- One more can be taken. -/
def toLeft {n : Nat} (r : Rest n) : Left (n + 1) := ⟨r.1, Nat.lt_succ_of_le r.2⟩

/-- What is left of what is left. -/
def within {n : Nat} (outer : Rest n) (l : Left outer.1.length) : Left n :=
  ⟨l.1, Nat.lt_of_lt_of_le l.2 outer.2⟩

end Rest

/-- The token at the front, or the end of the text. -/
def front (last : Nat) (ts : List Token) : Token := ts.headD ⟨.endOfFile, last⟩

/-- The first token is a piece of punctuation. -/
def startsWith (p : Punct) : List Token → Bool
  | [] => false
  | t :: _ => t.kind = .punct p

/-- The first token begins the name of a type. -/
def startsType : List Token → Bool
  | [] => false
  | t :: _ => t.kind.isType

/-- Takes a piece of punctuation. -/
def expect (last : Nat) (p : Punct) (ts : List Token) : Except Fault (Left ts.length) :=
  match ts with
  | [] => .error (.expected (.exactly p) (front last []))
  | t :: ts =>
    if t.kind = .punct p then .ok (.tail ts)
    else .error (.expected (.exactly p) t)

/-- Takes a name; its line comes with it. -/
def readName (last : Nat) (ts : List Token) : Except Fault ((String × Nat) × Left ts.length) :=
  match ts with
  | [] => .error (.expected .anIdentifier (front last []))
  | t :: ts =>
    match t.kind with
    | .identifier name => .ok ((name, t.line), .tail ts)
    | _ => .error (.expected .anIdentifier t)

/-- The type that a keyword names. -/
def baseTy? : Kind → Option Ty
  | .keyword .kwInt => some .int
  | .keyword .kwFloat => some .float
  | .keyword .kwVoid => some .void
  | _ => none

/-- Takes the stars after a type; each makes it a pointer. -/
def readStars (ty : Ty) (ts : List Token) : Ty × Rest ts.length :=
  match ts with
  | [] => (ty, .all [])
  | t :: ts =>
    if t.kind = .punct .star then
      let (ty, rest) := readStars (.pointer ty) ts
      (ty, rest.succ)
    else (ty, .all (t :: ts))

/-- Takes the name of a type. -/
def readTy (last : Nat) (ts : List Token) : Except Fault (Ty × Left ts.length) :=
  match ts with
  | [] => .error (.expected .aType (front last []))
  | t :: ts =>
    match baseTy? t.kind with
    | some base =>
      let (ty, rest) := readStars base ts
      .ok (ty, rest.toLeft)
    | none => .error (.expected .aType t)

end MiniC.Outline
