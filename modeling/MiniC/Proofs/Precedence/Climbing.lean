/-
  MiniC.Proofs.Precedence.Climbing

  Reading a run by precedence climbing, and the trees that this gives.

  The grammar of a run is `U* O (B U* O)*`: operators in front, an operand,
  and operators between two.  The reference reader takes it from left to
  right.  Each operator between two has a level; the reader goes on with its
  right operand as long as the operators it meets are of a higher level, so
  operators of one level associate to the left.

    • `Tree.reading` gives back the run that a tree stands for,
    • `Tree.Settled` says of a tree without holes that no operator holds an
      operand that a neighbour binds tighter,
    • `reference_reading`: the reference reader gives back a settled tree
      from its reading, so a run has at most one.
-/
import MiniC.Precedence

namespace MiniC

/-! ## §1. Levels -/

/-- The level of an operator between two operands: assignments are lowest,
then logic, bits, comparisons, sums and products. -/
def BinaryOp.level : BinaryOp → Nat
  | .assign => 0
  | .logical _ => 1
  | .bitwise _ => 2
  | .compare _ => 3
  | .arith .add | .arith .sub => 4
  | .arith .mul | .arith .div => 5

/-- The level of what no operator between two operands can split. -/
def primaryLevel : Nat := 6

/-- Operators bind less than operands. -/
theorem BinaryOp.level_lt_primaryLevel (op : BinaryOp) : op.level < primaryLevel := by
  cases op with
  | assign => decide
  | arith op => cases op <;> decide
  | compare op => exact (by decide : 3 < 6)
  | logical op => exact (by decide : 1 < 6)
  | bitwise op => exact (by decide : 2 < 6)

/-! ## §2. Runs and trees -/

namespace Precedence

variable {α : Type}

/-- `U* O`: operators in front, and an operand. -/
inductive Prefixed : List (Part α) → Prop where
  /-- The operand. -/
  | operand (a : α) (line : Nat) : Prefixed [.operand a line]
  /-- One more operator in front. -/
  | unary (op : UnaryOp) (target : Option Ty) (line : Nat) {ps : List (Part α)}
      (h : Prefixed ps) : Prefixed (.unary op target line :: ps)

/-- `U* O (B U* O)*`: operands between operators. -/
inductive WellFormed : List (Part α) → Prop where
  /-- No operator between two. -/
  | first {ps : List (Part α)} (h : Prefixed ps) : WellFormed ps
  /-- One more operator and its right operand. -/
  | more {ps qs : List (Part α)} (op : BinaryOp) (line : Nat) (h : WellFormed ps)
      (h' : Prefixed qs) : WellFormed (ps ++ .binary op line :: qs)

end Precedence

namespace Tree

variable {α : Type}

/-- The run that a tree stands for, from left to right; an open side is left
out. -/
def reading : Tree α → List (Part α)
  | .hole => []
  | .operand a line => [.operand a line]
  | .unary op target line arg => .unary op target line :: arg.reading
  | .binary op line left right => left.reading ++ .binary op line :: right.reading

/-- No side is open, at the root or below. -/
def isFull : Tree α → Bool
  | .hole => false
  | .operand .. => true
  | .unary _ _ _ arg => arg.isFull
  | .binary _ _ left right => left.isFull && right.isFull

/-- The level of the root. -/
def level : Tree α → Nat
  | .binary op .. => op.level
  | _ => primaryLevel

/-- No side is open, and every operator holds what it binds tighter than its
neighbours do: on its left, nothing of a lower level; on its right, nothing of
its own level either; in front, nothing that an operator between two splits. -/
def Settled : Tree α → Prop
  | .hole => False
  | .operand .. => True
  | .unary _ _ _ arg => arg.Settled ∧ primaryLevel ≤ arg.level
  | .binary op _ left right =>
    (left.Settled ∧ op.level ≤ left.level) ∧ right.Settled ∧ op.level < right.level

/-- A settled tree has no hole. -/
theorem Settled.isFull {t : Tree α} (h : t.Settled) : t.isFull = true := by
  induction t with
  | hole => exact absurd h id
  | operand a line => rfl
  | unary op target line arg ih => exact ih h.1
  | binary op line left right ihl ihr =>
    show (left.isFull && right.isFull) = true
    rw [ihl h.1.1, ihr h.2.1]
    rfl

end Tree

namespace Precedence

variable {α : Type}
variable {ps : List (Part α)} {t : Tree α} {least : Nat}

/-- Operators in front make no difference to what follows the operand. -/
theorem WellFormed.unary (op : UnaryOp) (target : Option Ty) (line : Nat) {ps : List (Part α)}
    (h : WellFormed ps) : WellFormed (.unary op target line :: ps) := by
  induction h with
  | first h => exact .first (.unary op target line h)
  | more op' line' _ h' ih => exact .more op' line' ih h'

/-- Two runs with an operator between them are a run. -/
theorem WellFormed.binary (op : BinaryOp) (line : Nat) {qs : List (Part α)} (hp : WellFormed ps)
    (hq : WellFormed qs) : WellFormed (ps ++ .binary op line :: qs) := by
  induction hq with
  | first h => exact .more op line hp h
  | more op' line' _ h' ih =>
    have := WellFormed.more op' line' ih h'
    rwa [List.append_assoc, List.cons_append] at this

/-- **What a tree without holes stands for is a run of the grammar.** -/
theorem wellFormed_reading (h : t.isFull = true) : WellFormed t.reading := by
  induction t with
  | hole => exact absurd h Bool.false_ne_true
  | operand a line => exact .first (.operand a line)
  | unary op target line arg ih => exact (ih h).unary op target line
  | binary op line left right ihl ihr =>
    have h : (left.isFull && right.isFull) = true := h
    rw [Bool.and_eq_true] at h
    exact (ihl h.1).binary op line (ihr h.2)

/-! ## §3. The reference reader -/

/-- Reads operators in front and an operand. -/
def readPrefixed : List (Part α) → Option (Tree α × List (Part α))
  | .operand a line :: ps => some (.operand a line, ps)
  | .unary op target line :: ps =>
    (readPrefixed ps).map fun (arg, rest) => (.unary op target line arg, rest)
  | _ => none

/-- Reading an operand takes a part at least. -/
theorem length_of_readPrefixed {rest : List (Part α)} (h : readPrefixed ps = some (t, rest)) :
    rest.length < ps.length := by
  induction ps generalizing t with
  | nil => exact absurd h (by simp [readPrefixed])
  | cons p ps ih =>
    cases p with
    | operand a line =>
      simp only [readPrefixed, Option.some.injEq, Prod.mk.injEq] at h
      rw [← h.2]
      exact Nat.lt_succ_self _
    | unary op target line =>
      simp only [readPrefixed, Option.map_eq_some_iff, Prod.mk.injEq] at h
      obtain ⟨⟨arg, rest'⟩, harg, _, rfl⟩ := h
      exact Nat.lt_succ_of_lt (ih harg)
    | binary op line => exact absurd h (by simp [readPrefixed])

mutual

/-- Reads an operand and every operator from level `least` up. -/
def climb (least : Nat) (ps : List (Part α)) : Option (Tree α × List (Part α)) :=
  match _h : readPrefixed ps with
  | none => none
  | some (first, rest) => climbOn least first rest
termination_by ps.length
decreasing_by exact length_of_readPrefixed _h

/-- Goes on after a left operand: takes every operator from level `least` up
with its right operand, in which all operators are of a higher level. -/
def climbOn (least : Nat) (left : Tree α) (ps : List (Part α)) :
    Option (Tree α × List (Part α)) :=
  match ps with
  | .binary op line :: ps =>
    if least ≤ op.level then
      match climb (op.level + 1) ps with
      | none => none
      | some (right, rest) =>
        -- always so, as reading never gives back more than there was
        if rest.length ≤ ps.length then climbOn least (.binary op line left right) rest
        else none
    else some (left, .binary op line :: ps)
  | ps => some (left, ps)
termination_by ps.length

end

/-- The tree of a run by precedence climbing, if all of it can be read. -/
def reference (ps : List (Part α)) : Option (Tree α) :=
  match climb 0 ps with
  | some (t, []) => some t
  | _ => none

/-! ## §4. The reference reader on the reading of a settled tree -/

/-- A tree that no operator between two splits is read as one operand. -/
theorem readPrefixed_reading (h : t.Settled) (hl : primaryLevel ≤ t.level) (rest : List (Part α)) :
    readPrefixed (t.reading ++ rest) = some (t, rest) := by
  induction t with
  | hole => exact absurd h id
  | operand a line => rfl
  | unary op target line arg ih =>
    show (readPrefixed (arg.reading ++ rest)).map _ = _
    rw [ih h.1 h.2]
    rfl
  | binary op line left right =>
    exact absurd op.level_lt_primaryLevel (Nat.not_lt_of_le hl)

/-- No operator of a level above `most` stands at the front. -/
def FrontAtMost (most : Nat) (ps : List (Part α)) : Prop :=
  ∀ op line rest, ps = .binary op line :: rest → op.level ≤ most

/-- Climbing begins with an operand. -/
theorem climb_of_readPrefixed {rest : List (Part α)} (h : readPrefixed ps = some (t, rest)) :
    climb least ps = climbOn least t rest := by
  rw [climb]
  split
  next h' => rw [h] at h'; cases h'
  next h' => rw [h] at h'; cases h'; rfl

/-- Going on stops in front of an operator of a lower level. -/
theorem climbOn_stop {most : Nat} (t : Tree α) (h : FrontAtMost most ps) (hl : most < least) :
    climbOn least t ps = some (t, ps) := by
  unfold climbOn
  split
  next op line ps' =>
    have hop : op.level ≤ most := h op line ps' rfl
    rw [if_neg (by omega)]
  next => rfl

/-- **Climbing through the reading of a settled tree builds the tree**, as
long as what follows binds its right end no tighter. -/
theorem climb_reading (h : t.Settled) (hl : least ≤ t.level) {rest : List (Part α)}
    (hr : FrontAtMost t.level rest) : climb least (t.reading ++ rest) = climbOn least t rest := by
  -- the left operand is climbed through at the same least level, the right
  -- one from the level above the operator's own
  induction t generalizing least rest with
  | hole => exact absurd h id
  | operand a line => exact climb_of_readPrefixed rfl
  | unary op target line arg =>
    exact climb_of_readPrefixed (readPrefixed_reading h (Nat.le_refl _) rest)
  | binary op line left right ihl ihr =>
    obtain ⟨⟨hleft, hll⟩, hright, hrl⟩ := h
    have hl : least ≤ op.level := hl
    have hfront : FrontAtMost left.level (.binary op line :: (right.reading ++ rest)) := by
      intro op' line' rest' heq
      cases heq
      exact hll
    have hstop : climb (op.level + 1) (right.reading ++ rest) = some (right, rest) := by
      rw [ihr hright hrl (fun op' line' rest' heq =>
        Nat.le_trans (hr op' line' rest' heq) (Nat.le_of_lt hrl))]
      exact climbOn_stop right hr (Nat.lt_succ_self _)
    show climb least ((left.reading ++ .binary op line :: right.reading) ++ rest) = _
    rw [List.append_assoc, List.cons_append,
        ihl hleft (Nat.le_trans hl hll) hfront, climbOn, if_pos hl, hstop]
    show (if rest.length ≤ (right.reading ++ rest).length then _ else none) = _
    rw [if_pos (by simp)]

/-- **The reference reader gives back a settled tree from its reading.** -/
theorem reference_reading (h : t.Settled) : reference t.reading = some t := by
  have hnil : ∀ most, FrontAtMost most ([] : List (Part α)) := by
    intro most op line rest heq
    cases heq
  have hclimb := climb_reading h (Nat.zero_le t.level) (hnil t.level)
  rw [List.append_nil] at hclimb
  have hon : climbOn 0 t [] = some (t, []) := by
    rw [climbOn]
    intro op line ps heq
    cases heq
  rw [reference, hclimb, hon]

end Precedence

end MiniC
