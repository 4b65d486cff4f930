/-
  MiniC.Proofs.Precedence.Collapsing

  **Collapsing a run is precedence climbing.**

  A pass looks at finished nodes one after the other, and the order in which
  sides are filled has little to do with the tree that comes out.  What all of
  it consists of is one `Move`: a finished node goes into the open side of a
  neighbour, the one that asks for it with the greater power.

    • A move keeps the reading of a run, whatever the run is.
    • A move keeps a run `Sound`: of two neighbours exactly one asks for the
      other, and the other's operator binds tightly enough to be taken.
    • In a sound run of more than one node some node is finished, so a pass
      makes it shorter; and no pass over it fails.

  So a run of the grammar collapses to a settled tree, which the reference
  reader gives as well, and any other run ends in a fault: a tree without
  holes would have it as its reading.
-/
import Mathlib.Data.List.Chain
import Mathlib.Logic.Relation
import MiniC.Proofs.Precedence.Climbing

namespace MiniC

/-- What goes on after a computation succeeds if both do. -/
theorem bind_eq_ok {ε α β : Type} {x : Except ε α} {f : α → Except ε β} {b : β} :
    (x >>= f) = .ok b ↔ ∃ a, x = .ok a ∧ f a = .ok b := by
  cases x with
  | error e =>
    constructor
    · intro h
      cases h
    · rintro ⟨a, h, _⟩
      cases h
  | ok a =>
    constructor
    · intro h
      exact ⟨a, rfl, h⟩
    · rintro ⟨a', h, h'⟩
      cases h
      exact h'

/-! ## §1. Powers and levels -/

/-- Powers are ordered as levels are. -/
theorem BinaryOp.leftPower_lt_leftPower (a b : BinaryOp) :
    a.leftPower < b.leftPower ↔ a.level < b.level := by
  cases a <;> cases b <;> (try rename_i x; cases x) <;> (try rename_i y; cases y) <;> decide

/-- An operator in front binds tighter than any operator between two. -/
theorem BinaryOp.rightPower_lt_unaryPower (op : BinaryOp) : op.rightPower < unaryPower := by
  cases op with
  | arith op => cases op <;> decide
  | assign => decide
  | compare op => exact (by decide : 8 < 30)
  | logical op => exact (by decide : 4 < 30)
  | bitwise op => exact (by decide : 6 < 30)

namespace Tree

variable {α : Type}
variable {t c : Tree α} {p q : Nat}

/-- How tightly the root holds what is on its left. -/
def leftPower : Tree α → Nat
  | .binary op .. => op.leftPower
  | _ => unaryPower

/-- How tightly the root holds what is on its right. -/
def rightPower : Tree α → Nat
  | .binary op .. => op.rightPower
  | _ => unaryPower

/-- An operator takes on its left what holds its own right side tighter. -/
theorem level_le_of_leftPower_lt {op : BinaryOp} (h : op.leftPower < t.rightPower) :
    op.level ≤ t.level := by
  cases t with
  | binary op' line left right =>
    have h : op.leftPower < op'.leftPower + 1 := h
    have := BinaryOp.leftPower_lt_leftPower op' op
    show op.level ≤ op'.level
    omega
  | _ => exact Nat.le_of_lt op.level_lt_primaryLevel

/-- An operator takes on its right what holds its own left side tighter. -/
theorem level_lt_of_rightPower_le {op : BinaryOp} (h : op.rightPower ≤ t.leftPower) :
    op.level < t.level := by
  cases t with
  | binary op' line left right =>
    exact (BinaryOp.leftPower_lt_leftPower op op').1 h
  | _ => exact op.level_lt_primaryLevel

/-- An operator in front takes only what no operator between two splits. -/
theorem primaryLevel_le_of_unaryPower_le (h : unaryPower ≤ t.leftPower) :
    primaryLevel ≤ t.level := by
  cases t with
  | binary op line left right =>
    have h : unaryPower ≤ op.leftPower := h
    have : op.leftPower + 1 < unaryPower := op.rightPower_lt_unaryPower
    omega
  | _ => exact Nat.le_refl _

/-! ## §2. Nodes with open sides -/

/-- What has been filled in is settled and rightly held; sides of the root may
still be open. -/
def Growing : Tree α → Prop
  | .hole => False
  | .operand .. => True
  | .unary _ _ _ arg => arg = .hole ∨ arg.Settled ∧ primaryLevel ≤ arg.level
  | .binary op _ left right =>
    (left = .hole ∨ left.Settled ∧ op.level ≤ left.level) ∧
      (right = .hole ∨ right.Settled ∧ op.level < right.level)

theorem isHole_iff : t.isHole = true ↔ t = .hole := by
  cases t <;> simp [isHole]

theorem Settled.isHole (h : t.Settled) : t.isHole = false := by
  cases t with
  | hole => exact absurd h id
  | _ => rfl

/-- An operator asks on its left as long as nothing is there. -/
@[simp]
theorem openLeft?_binary (op : BinaryOp) (line : Nat) (left right : Tree α) :
    (binary op line left right).openLeft? = if left.isHole then some op.leftPower else none := by
  cases left <;> rfl

/-- An operator asks on its right as long as nothing is there. -/
@[simp]
theorem openRight?_binary (op : BinaryOp) (line : Nat) (left right : Tree α) :
    (binary op line left right).openRight? =
      if right.isHole then some op.rightPower else none := by
  cases right <;> rfl

/-- An operator in front asks as long as it has no operand. -/
@[simp]
theorem openRight?_unary (op : UnaryOp) (target : Option Ty) (line : Nat) (arg : Tree α) :
    (unary op target line arg).openRight? = if arg.isHole then some unaryPower else none := by
  cases arg <;> rfl

/-- A finished tree asks for nothing on its left. -/
theorem openLeft?_of_isFinished (h : t.isFinished = true) : t.openLeft? = none := by
  cases t with
  | binary op line left right =>
    simp only [isFinished, Bool.and_eq_true, Bool.not_eq_true'] at h
    rw [openLeft?_binary, h.1, if_neg Bool.false_ne_true]
  | _ => rfl

/-- A finished tree asks for nothing on its right. -/
theorem openRight?_of_isFinished (h : t.isFinished = true) : t.openRight? = none := by
  cases t with
  | hole => rfl
  | operand a line => rfl
  | unary op target line arg =>
    simp only [isFinished, Bool.not_eq_true'] at h
    rw [openRight?_unary, h, if_neg Bool.false_ne_true]
  | binary op line left right =>
    simp only [isFinished, Bool.and_eq_true, Bool.not_eq_true'] at h
    rw [openRight?_binary, h.2, if_neg Bool.false_ne_true]

/-- A node that asks for nothing is finished. -/
theorem isFinished_of_open (h : t.Growing) (hl : t.openLeft? = none) (hr : t.openRight? = none) :
    t.isFinished = true := by
  cases t with
  | hole => exact absurd h id
  | operand a line => rfl
  | unary op target line arg => simpa [isFinished] using hr
  | binary op line left right => simpa [isFinished] using And.intro hl hr

/-- A finished node is a settled tree. -/
theorem Growing.settled (h : t.Growing) (hf : t.isFinished = true) : t.Settled := by
  cases t with
  | hole => exact h
  | operand a line => trivial
  | unary op target line arg =>
    rcases h with rfl | h
    · exact absurd hf Bool.false_ne_true
    · exact h
  | binary op line left right =>
    simp only [isFinished, Bool.and_eq_true, Bool.not_eq_true'] at hf
    obtain ⟨rfl | hl, rfl | hr⟩ := h
    · exact absurd hf.1 (by simp [Tree.isHole])
    · exact absurd hf.1 (by simp [Tree.isHole])
    · exact absurd hf.2 (by simp [Tree.isHole])
    · exact ⟨hl, hr⟩

/-- The power that a node asks with is that with which it holds its right. -/
theorem rightPower_of_openRight? (h : t.openRight? = some p) : t.rightPower = p := by
  cases t with
  | hole => simp [openRight?] at h
  | operand a line => simp [openRight?] at h
  | unary op target line arg =>
    rw [openRight?_unary, Option.ite_none_right_eq_some] at h
    exact Option.some.inj h.2
  | binary op line left right =>
    rw [openRight?_binary, Option.ite_none_right_eq_some] at h
    exact Option.some.inj h.2

/-- The power that a node asks with is that with which it holds its left. -/
theorem leftPower_of_openLeft? (h : t.openLeft? = some q) : t.leftPower = q := by
  cases t with
  | binary op line left right =>
    rw [openLeft?_binary, Option.ite_none_right_eq_some] at h
    exact Option.some.inj h.2
  | _ => simp [openLeft?] at h

/-! ## §3. Filling a side -/

@[simp]
theorem openLeft?_fillRight (t c : Tree α) : (t.fillRight c).openLeft? = t.openLeft? := by
  cases t with
  | binary op line left right => simp [Tree.fillRight]
  | _ => rfl

@[simp]
theorem leftPower_fillRight (t c : Tree α) : (t.fillRight c).leftPower = t.leftPower := by
  cases t <;> rfl

@[simp]
theorem rightPower_fillRight (t c : Tree α) : (t.fillRight c).rightPower = t.rightPower := by
  cases t <;> rfl

@[simp]
theorem openRight?_fillLeft (t c : Tree α) : (t.fillLeft c).openRight? = t.openRight? := by
  cases t with
  | binary op line left right => simp [Tree.fillLeft]
  | _ => rfl

@[simp]
theorem leftPower_fillLeft (t c : Tree α) : (t.fillLeft c).leftPower = t.leftPower := by
  cases t <;> rfl

@[simp]
theorem rightPower_fillLeft (t c : Tree α) : (t.fillLeft c).rightPower = t.rightPower := by
  cases t <;> rfl

/-- A tree given its right side asks for no more there. -/
theorem openRight?_fillRight (hc : c.Settled) : (t.fillRight c).openRight? = none := by
  cases t with
  | hole => rfl
  | operand a line => rfl
  | unary op target line arg => simp [Tree.fillRight, hc.isHole]
  | binary op line left right => simp [Tree.fillRight, hc.isHole]

theorem openLeft?_fillLeft (hc : c.Settled) : (t.fillLeft c).openLeft? = none := by
  cases t with
  | binary op line left right => simp [Tree.fillLeft, hc.isHole]
  | _ => rfl

/-- A settled node may go into an open right side whose power it holds off. -/
theorem Growing.fillRight (ht : t.Growing) (hc : c.Settled) (hp : t.openRight? = some p)
    (hle : p ≤ c.leftPower) : (t.fillRight c).Growing := by
  have hp : t.rightPower = p := rightPower_of_openRight? hp
  subst hp
  cases t with
  | hole => exact absurd ht id
  | operand a line => trivial
  | unary op target line arg => exact .inr ⟨hc, primaryLevel_le_of_unaryPower_le hle⟩
  | binary op line left right => exact ⟨ht.1, .inr ⟨hc, level_lt_of_rightPower_le hle⟩⟩

/-- A settled node may go into an open left side whose power it holds off. -/
theorem Growing.fillLeft (ht : t.Growing) (hc : c.Settled) (hq : t.openLeft? = some q)
    (hlt : q < c.rightPower) : (t.fillLeft c).Growing := by
  have hq : t.leftPower = q := leftPower_of_openLeft? hq
  subst hq
  cases t with
  | binary op line left right => exact ⟨.inr ⟨hc, level_le_of_leftPower_lt hlt⟩, ht.2⟩
  | _ => exact ht

/-- What fills the right side is read after the tree. -/
theorem reading_fillRight (h : t.openRight? = some p) :
    (t.fillRight c).reading = t.reading ++ c.reading := by
  cases t with
  | hole => simp [openRight?] at h
  | operand a line => simp [openRight?] at h
  | unary op target line arg =>
    rw [openRight?_unary, Option.ite_none_right_eq_some, isHole_iff] at h
    simp [Tree.fillRight, reading, h.1]
  | binary op line left right =>
    rw [openRight?_binary, Option.ite_none_right_eq_some, isHole_iff] at h
    simp [Tree.fillRight, reading, h.1]

/-- What fills the left side is read before the tree. -/
theorem reading_fillLeft (h : t.openLeft? = some q) :
    (t.fillLeft c).reading = c.reading ++ t.reading := by
  cases t with
  | binary op line left right =>
    rw [openLeft?_binary, Option.ite_none_right_eq_some, isHole_iff] at h
    simp [Tree.fillLeft, reading, h.1]
  | _ => simp [openLeft?] at h

end Tree

namespace Precedence

variable {α : Type}
variable {run run' before after : List (Tree α)} {a b left here next : Tree α} {l r : Option Nat}
  {ps : List (Part α)}

/-! ## §4. Moves -/

/-- One move: a finished node goes to the neighbour that asks with the greater
power, or to the only one that asks. -/
inductive Move : List (Tree α) → List (Tree α) → Prop where
  /-- To the neighbour on the left. -/
  | toLeft (xs ys : List (Tree α)) {left here : Tree α} {p : Nat}
      (done : here.isFinished = true) (asks : left.openRight? = some p)
      (greater : ∀ next ∈ ys.head?, ∀ q ∈ next.openLeft?, q < p) :
      Move (xs ++ left :: here :: ys) (xs ++ left.fillRight here :: ys)
  /-- To the neighbour on the right. -/
  | toRight (xs ys : List (Tree α)) {here next : Tree α} {q : Nat}
      (done : here.isFinished = true) (asks : next.openLeft? = some q)
      (greater : ∀ left ∈ xs.getLast?, ∀ p ∈ left.openRight?, p ≤ q) :
      Move (xs ++ here :: next :: ys) (xs ++ next.fillLeft here :: ys)

/-- Any number of moves. -/
abbrev Moves : List (Tree α) → List (Tree α) → Prop := Relation.ReflTransGen Move

/-- What a run stands for, from left to right. -/
def runReading (run : List (Tree α)) : List (Part α) := run.flatMap Tree.reading

/-- A move does not change what is read. -/
theorem Move.runReading_eq (h : Move run run') : runReading run' = runReading run := by
  cases h with
  | toLeft xs ys done asks greater =>
    simp [runReading, Tree.reading_fillRight asks]
  | toRight xs ys done asks greater =>
    simp [runReading, Tree.reading_fillLeft asks]

theorem Move.length_eq (h : Move run run') : run.length = run'.length + 1 := by
  cases h with
  | toLeft xs ys done asks greater => simp [Nat.add_assoc]
  | toRight xs ys done asks greater => simp [Nat.add_assoc]

/-- **Moves keep what a run stands for.** -/
theorem Moves.runReading_eq {run run' : List (Tree α)} (h : Moves run run') :
    runReading run' = runReading run := by
  induction h with
  | refl => rfl
  | tail _ hmove ih => rw [hmove.runReading_eq, ih]

/-- Moves never lengthen a run. -/
theorem Moves.length_le (h : Moves run run') : run'.length ≤ run.length := by
  induction h with
  | refl => exact Nat.le_refl _
  | tail _ hmove ih =>
    have := hmove.length_eq
    omega

/-- The node that was filled is left. -/
theorem Moves.ne_nil (h : Moves run run') (hne : run ≠ []) : run' ≠ [] := by
  induction h with
  | refl => exact hne
  | tail _ hmove _ =>
    cases hmove with
    | toLeft xs ys done asks greater => simp
    | toRight xs ys done asks greater => simp

/-! ## §5. Sound runs -/

/-- Of two neighbours exactly one asks for the other, and what it asks for
holds off its power. -/
def Fits (a b : Tree α) : Prop :=
  match a.openRight?, b.openLeft? with
  | some p, none => p ≤ b.leftPower
  | none, some q => q < a.rightPower
  | _, _ => False

/-- Neighbours fit, the outer sides are closed, and every node is rightly
filled. -/
structure Sound (run : List (Tree α)) : Prop where
  growing : ∀ t ∈ run, t.Growing
  fits : run.IsChain Fits
  left : ∀ t ∈ run.head?, t.openLeft? = none
  right : ∀ t ∈ run.getLast?, t.openRight? = none

/-- A node on the right that asks for nothing is asked for. -/
theorem Fits.of_closed_right (h : Fits a b) (hb : b.openLeft? = none) :
    ∃ p, a.openRight? = some p ∧ p ≤ b.leftPower := by
  unfold Fits at h
  cases ha : a.openRight? with
  | none =>
    rw [ha, hb] at h
    exact absurd h id
  | some p =>
    rw [ha, hb] at h
    exact ⟨p, rfl, h⟩

/-- A node on the left that asks for nothing is asked for. -/
theorem Fits.of_closed_left (h : Fits a b) (ha : a.openRight? = none) :
    ∃ q, b.openLeft? = some q ∧ q < a.rightPower := by
  unfold Fits at h
  cases hb : b.openLeft? with
  | none =>
    rw [ha, hb] at h
    exact absurd h id
  | some q =>
    rw [ha, hb] at h
    exact ⟨q, rfl, h⟩

theorem fits_of_asks_left {p : Nat} (ha : a.openRight? = some p) (hb : b.openLeft? = none)
    (h : p ≤ b.leftPower) : Fits a b := by
  unfold Fits
  rw [ha, hb]
  exact h

theorem fits_of_asks_right {q : Nat} (ha : a.openRight? = none) (hb : b.openLeft? = some q)
    (h : q < a.rightPower) : Fits a b := by
  unfold Fits
  rw [ha, hb]
  exact h

/-- Only the left side of the right neighbour matters. -/
theorem Fits.congr_right {b' : Tree α} (h : Fits a b) (ho : b'.openLeft? = b.openLeft?)
    (hp : b'.leftPower = b.leftPower) : Fits a b' := by
  unfold Fits
  rw [ho, hp]
  exact h

/-- Only the right side of the left neighbour matters. -/
theorem Fits.congr_left {a' : Tree α} (h : Fits a b) (ho : a'.openRight? = a.openRight?)
    (hp : a'.rightPower = a.rightPower) : Fits a' b := by
  unfold Fits
  rw [ho, hp]
  exact h

/-- A finished tree that its left neighbour binds tighter may go there. -/
theorem Sound.toLeft {xs ys : List (Tree α)} {p : Nat} (h : Sound (xs ++ left :: here :: ys))
    (done : here.isFinished = true) (asks : left.openRight? = some p)
    (greater : ∀ next ∈ ys.head?, ∀ q ∈ next.openLeft?, q < p) :
    Sound (xs ++ left.fillRight here :: ys) := by
  obtain ⟨hgrow, hfits, hleft, hright⟩ := h
  rw [List.isChain_append, List.isChain_cons_cons] at hfits
  obtain ⟨hxs, ⟨hjoin, hys⟩, hbound⟩ := hfits
  have hsettled : here.Settled := (hgrow here (by simp)).settled done
  obtain ⟨p', hp', hle⟩ := hjoin.of_closed_right (Tree.openLeft?_of_isFinished done)
  have hpp : p' = p := Option.some.inj (hp'.symm.trans asks)
  subst hpp
  refine ⟨?_, ?_, ?_, ?_⟩
  · -- only the node that was filled is new
    intro t ht
    rw [List.mem_append, List.mem_cons] at ht
    rcases ht with ht | rfl | ht
    · exact hgrow t (by simp [ht])
    · exact (hgrow left (by simp)).fillRight hsettled asks hle
    · exact hgrow t (by simp [ht])
  · rw [List.isChain_append]
    refine ⟨hxs, ?_, ?_⟩
    · -- the node that follows asked with less than the filled node holds on with
      cases ys with
      | nil => exact List.isChain_singleton _
      | cons next ys =>
        rw [List.isChain_cons_cons] at hys ⊢
        obtain ⟨q, hq, _⟩ := hys.1.of_closed_left (Tree.openRight?_of_isFinished done)
        have hlt : q < p' := greater next rfl q hq
        refine ⟨fits_of_asks_right (Tree.openRight?_fillRight hsettled) hq ?_, hys.2⟩
        rw [Tree.rightPower_fillRight, Tree.rightPower_of_openRight? asks]
        exact hlt
    · -- filling the right side does not show on the left
      intro x hx y hy
      cases hy
      exact (hbound x hx left rfl).congr_right (Tree.openLeft?_fillRight _ _)
        (Tree.leftPower_fillRight _ _)
  · intro t ht
    cases xs with
    | nil =>
      cases ht
      rw [Tree.openLeft?_fillRight]
      exact hleft left rfl
    | cons x xs => exact hleft t ht
  · intro t ht
    cases ys with
    | nil =>
      simp only [List.getLast?_concat, Option.mem_some_iff] at ht
      rw [← ht]
      exact Tree.openRight?_fillRight hsettled
    | cons y ys => exact hright t (by simpa [List.getLast?_append, List.getLast?_cons] using ht)

/-- One that its right neighbour binds at least as tight may go there. -/
theorem Sound.toRight {xs ys : List (Tree α)} {q : Nat} (h : Sound (xs ++ here :: next :: ys))
    (done : here.isFinished = true) (asks : next.openLeft? = some q)
    (greater : ∀ left ∈ xs.getLast?, ∀ p ∈ left.openRight?, p ≤ q) :
    Sound (xs ++ next.fillLeft here :: ys) := by
  obtain ⟨hgrow, hfits, hleft, hright⟩ := h
  rw [List.isChain_append, List.isChain_cons_cons] at hfits
  obtain ⟨hxs, ⟨hjoin, hys⟩, hbound⟩ := hfits
  have hsettled : here.Settled := (hgrow here (by simp)).settled done
  obtain ⟨q', hq', hlt⟩ := hjoin.of_closed_left (Tree.openRight?_of_isFinished done)
  have hqq : q' = q := Option.some.inj (hq'.symm.trans asks)
  subst hqq
  refine ⟨?_, ?_, ?_, ?_⟩
  · intro t ht
    rw [List.mem_append, List.mem_cons] at ht
    rcases ht with ht | rfl | ht
    · exact hgrow t (by simp [ht])
    · exact (hgrow next (by simp)).fillLeft hsettled asks hlt
    · exact hgrow t (by simp [ht])
  · rw [List.isChain_append]
    refine ⟨hxs, ?_, ?_⟩
    · -- filling the left side does not show on the right
      cases ys with
      | nil => exact List.isChain_singleton _
      | cons y ys =>
        rw [List.isChain_cons_cons] at hys ⊢
        exact ⟨hys.1.congr_left (Tree.openRight?_fillLeft _ _) (Tree.rightPower_fillLeft _ _),
          hys.2⟩
    · -- the node before asked with no more than the filled node holds on with
      intro x hx y hy
      cases hy
      obtain ⟨p, hp, _⟩ :=
        (hbound x hx here rfl).of_closed_right (Tree.openLeft?_of_isFinished done)
      refine fits_of_asks_left hp (Tree.openLeft?_fillLeft hsettled) ?_
      rw [Tree.leftPower_fillLeft, Tree.leftPower_of_openLeft? asks]
      exact greater x hx p hp
  · intro t ht
    cases xs with
    | nil =>
      cases ht
      exact Tree.openLeft?_fillLeft hsettled
    | cons x xs => exact hleft t ht
  · intro t ht
    cases ys with
    | nil =>
      simp only [List.getLast?_concat, Option.mem_some_iff] at ht
      rw [← ht, Tree.openRight?_fillLeft]
      exact hright next (by simp)
    | cons y ys => exact hright t (by simpa [List.getLast?_append, List.getLast?_cons] using ht)

/-- **A move keeps a run sound.** -/
theorem Move.sound (h : Move run run') (hs : Sound run) : Sound run' := by
  cases h with
  | toLeft xs ys done asks greater => exact hs.toLeft done asks greater
  | toRight xs ys done asks greater => exact hs.toRight done asks greater

theorem Moves.sound {run run' : List (Tree α)} (h : Moves run run') (hs : Sound run) :
    Sound run' := by
  induction h with
  | refl => exact hs
  | tail _ hmove ih => exact hmove.sound ih

/-! ## §6. A pass is made of moves -/

/-- The side that binds tighter, if the left one does. -/
theorem tighter_left (h : tighter l r = some .left) : ∃ p, l = some p ∧ ∀ q ∈ r, q < p := by
  unfold tighter at h
  split at h
  next => cases h
  next p => exact ⟨p, rfl, fun q hq => by cases hq⟩
  next => cases h
  next p q =>
    split at h
    next hlt => exact ⟨p, rfl, fun q' hq' => by cases hq'; exact hlt⟩
    next => cases h

/-- The side that binds tighter, if the right one does. -/
theorem tighter_right (h : tighter l r = some .right) : ∃ q, r = some q ∧ ∀ p ∈ l, p ≤ q := by
  unfold tighter at h
  split at h
  next => cases h
  next => cases h
  next q => exact ⟨q, rfl, fun p hp => by cases hp⟩
  next p q =>
    split at h
    next => cases h
    next hlt => exact ⟨q, rfl, fun p' hp' => by cases hp'; exact Nat.le_of_not_lt hlt⟩

/-- If nobody asks, there is no side. -/
theorem tighter_eq_none (h : tighter l r = none) : l = none := by
  unfold tighter at h
  split at h
  next => rfl
  next => cases h
  next => cases h
  next => split at h <;> cases h

/-- A node between two, handed to the left. -/
theorem Move.left_of_tighter (done : here.isFinished = true)
    (side : tighter left.openRight? next.openLeft? = some .left) :
    Move ((left :: before).reverse ++ here :: next :: after)
      ((left.fillRight here :: before).reverse ++ next :: after) := by
  obtain ⟨p, asks, hlt⟩ := tighter_left side
  have hmove := Move.toLeft before.reverse (next :: after) done asks
    (fun n hn q hq => by cases hn; exact hlt q hq)
  simpa using hmove

/-- A node between two, handed to the right. -/
theorem Move.right_of_tighter (done : here.isFinished = true)
    (side : tighter left.openRight? next.openLeft? = some .right) :
    Move ((left :: before).reverse ++ here :: next :: after)
      ((left :: before).reverse ++ next.fillLeft here :: after) := by
  obtain ⟨q, asks, hle⟩ := tighter_right side
  refine Move.toRight _ after done asks ?_
  intro l hl p hp
  rw [List.reverse_cons, List.getLast?_concat] at hl
  cases hl
  exact hle p hp

/-- A pass is a sequence of moves. -/
theorem pass_moves (h : pass before here after = .ok run) :
    Moves (before.reverse ++ here :: after) run := by
  -- the nodes already passed are kept in reverse, so each step is one move or none
  fun_induction pass before here after with
  | case1 here done => cases h; exact .refl
  | case2 here done left before p asks =>
    cases h
    have hmove := Move.toLeft before.reverse [] done asks (fun _ hn => by cases hn)
    simpa using Relation.ReflTransGen.single hmove
  | case3 => cases h
  | case4 before here undone => cases h; simpa using Relation.ReflTransGen.refl
  | case5 here next after done q asks ih =>
    exact .head (Move.toRight [] after done asks (fun _ hl => by cases hl)) (ih h)
  | case6 => cases h
  | case7 here next after done left before side ih =>
    exact .head (Move.left_of_tighter done side) (ih h)
  | case8 here next after done left before side ih =>
    exact .head (Move.right_of_tighter done side) (ih h)
  | case9 => cases h
  | case10 before here next after undone ih =>
    have := ih h
    simpa using this

/-- **Collapsing is a matter of moves**, from the run to the tree. -/
theorem collapse_moves {t : Tree α} (hne : run ≠ []) (h : collapse run = .ok t) :
    Moves run [t] := by
  fun_induction collapse run with
  | case1 => exact absurd rfl hne
  | case2 root => cases h; exact .refl
  | case3 => cases h
  | case4 first second rest run hpass hlt ih =>
    have hmoves : Moves (first :: second :: rest) run := pass_moves hpass
    exact hmoves.trans (ih (hmoves.ne_nil hne) h)
  | case5 => cases h

/-! ## §7. Sound runs collapse -/

/-- In a sound run a finished node is asked for by the node before it. -/
theorem Sound.asked_by_left (hs : Sound ((left :: before).reverse ++ here :: after))
    (done : here.isFinished = true) : ∃ p, left.openRight? = some p := by
  have hfits := hs.fits
  rw [List.reverse_cons, List.append_assoc, List.singleton_append, List.isChain_append,
      List.isChain_cons_cons] at hfits
  obtain ⟨p, hp, _⟩ := hfits.2.1.1.of_closed_right (Tree.openLeft?_of_isFinished done)
  exact ⟨p, hp⟩

/-- In a sound run a finished node is asked for by the node after it. -/
theorem Sound.asked_by_right (hs : Sound (before ++ here :: next :: after))
    (done : here.isFinished = true) : ∃ q, next.openLeft? = some q := by
  have hfits := hs.fits
  rw [List.isChain_append, List.isChain_cons_cons] at hfits
  obtain ⟨q, hq, _⟩ := hfits.2.1.1.of_closed_left (Tree.openRight?_of_isFinished done)
  exact ⟨q, hq⟩

/-- No pass over a sound run fails. -/
theorem pass_of_sound (hs : Sound (before.reverse ++ here :: after)) :
    ∃ run, pass before here after = .ok run := by
  fun_induction pass before here after with
  | case1 here done => exact ⟨_, rfl⟩
  | case2 here done left before p asks => exact ⟨_, rfl⟩
  | case3 here done left before asks =>
    obtain ⟨p, hp⟩ := hs.asked_by_left done
    rw [asks] at hp
    cases hp
  | case4 before here undone => exact ⟨_, rfl⟩
  | case5 here next after done q asks ih =>
    exact ih ((Move.toRight [] after done asks (fun _ hl => by cases hl)).sound hs)
  | case6 here next after done asks =>
    obtain ⟨q, hq⟩ := hs.asked_by_right done
    rw [asks] at hq
    cases hq
  | case7 here next after done left before side ih =>
    exact ih ((Move.left_of_tighter done side).sound hs)
  | case8 here next after done left before side ih =>
    exact ih ((Move.right_of_tighter done side).sound hs)
  | case9 here next after done left before side =>
    obtain ⟨p, hp⟩ := hs.asked_by_left done
    rw [tighter_eq_none side] at hp
    cases hp
  | case10 before here next after undone ih =>
    exact ih (by simpa using hs)

/-- In a sound run, a node with a closed right side is finished if the node
before it asks, or if there is none. -/
theorem Sound.isFinished (hs : Sound (before.reverse ++ here :: after))
    (hb : ∀ left ∈ before.head?, left.openRight? ≠ none) (hr : here.openRight? = none) :
    here.isFinished = true := by
  refine Tree.isFinished_of_open (hs.growing here (by simp)) ?_ hr
  cases before with
  | nil => exact hs.left here rfl
  | cons left before =>
    have hfits := hs.fits
    rw [List.reverse_cons, List.append_assoc, List.singleton_append, List.isChain_append,
        List.isChain_cons_cons] at hfits
    have hopen : left.openRight? ≠ none := hb left rfl
    cases hl : here.openLeft? with
    | none => rfl
    | some q =>
      have hfit := hfits.2.1.1
      unfold Fits at hfit
      cases hp : left.openRight? with
      | none => exact absurd hp hopen
      | some p =>
        rw [hp, hl] at hfit
        exact absurd hfit id

/-- **A pass over a sound run of more than one node makes it shorter.**  The
first node with a closed right side is finished; it is enough to follow the
pass up to there, past nodes that all ask on their right. -/
theorem length_pass_lt (hs : Sound (before.reverse ++ here :: after))
    (hb : ∀ left ∈ before.head?, left.openRight? ≠ none)
    (hlen : 1 < (before.reverse ++ here :: after).length) (h : pass before here after = .ok run) :
    run.length < (before.reverse ++ here :: after).length := by
  have hshort : ∀ {run₁ run₂ : List (Tree α)}, Move run₁ run₂ → Moves run₂ run →
      run.length < run₁.length := by
    intro run₁ run₂ hmove hmoves
    have := hmove.length_eq
    have := hmoves.length_le
    omega
  -- one move is enough, as no later one makes the run longer again
  fun_induction pass before here after with
  | case1 here done => exact absurd hlen (by simp)
  | case2 here done left before p asks => cases h; simp
  | case3 => cases h
  | case4 before here undone =>
    -- the last node asks for nothing on its right, and the node before it asks
    have hr : here.openRight? = none := hs.right here (by simp)
    exact absurd (hs.isFinished hb hr) undone
  | case5 here next after done q asks ih =>
    exact hshort (Move.toRight [] after done asks (fun _ hl => by cases hl)) (pass_moves h)
  | case6 => cases h
  | case7 here next after done left before side ih =>
    exact hshort (Move.left_of_tighter done side) (pass_moves h)
  | case8 here next after done left before side ih =>
    exact hshort (Move.right_of_tighter done side) (pass_moves h)
  | case9 => cases h
  | case10 before here next after undone ih =>
    -- a node that is passed over asks on its right, so the search goes on
    have hopen : here.openRight? ≠ none := fun hr => undone (hs.isFinished hb hr)
    have hlt := ih (by simpa using hs) (fun l hl => by cases hl; exact hopen)
      (by simpa using hlen) h
    simpa using hlt

/-- **A sound run collapses to a settled tree.** -/
theorem collapse_of_sound (hne : run ≠ []) (hs : Sound run) :
    ∃ t, collapse run = .ok t ∧ t.Settled := by
  fun_induction collapse run with
  | case1 => exact absurd rfl hne
  | case2 root =>
    have hgrow := hs.growing root (by simp)
    have hdone := Tree.isFinished_of_open hgrow (hs.left root rfl) (hs.right root rfl)
    exact ⟨root, rfl, hgrow.settled hdone⟩
  | case3 first second rest f hpass =>
    have hok : ∃ run, pass [] first (second :: rest) = .ok run := pass_of_sound hs
    rw [hpass] at hok
    obtain ⟨run, hrun⟩ := hok
    cases hrun
  | case4 first second rest run hpass hlt ih =>
    have hmoves : Moves (first :: second :: rest) run := pass_moves hpass
    exact ih (hmoves.ne_nil hne) (hmoves.sound hs)
  | case5 first second rest run hpass hlt =>
    -- this is the case of a pass that changed nothing
    have hfirst : ∀ left ∈ ([] : List (Tree α)).head?, left.openRight? ≠ none := nofun
    have hs' : Sound (([] : List (Tree α)).reverse ++ first :: second :: rest) := hs
    have hlen : 1 < (first :: second :: rest).length := Nat.succ_lt_succ (Nat.succ_pos _)
    exact absurd (length_pass_lt hs' hfirst hlen hpass) hlt

/-! ## §8. Runs of the grammar are sound -/

/-- Parts made trees are read as they were. -/
theorem runReading_map_toTree (ps : List (Part α)) : runReading (ps.map Part.toTree) = ps := by
  induction ps with
  | nil => rfl
  | cons p ps ih =>
    show p.toTree.reading ++ runReading (ps.map Part.toTree) = p :: ps
    rw [ih]
    cases p <;> rfl

theorem growing_toTree (p : Part α) : p.toTree.Growing := by
  cases p with
  | operand a line => trivial
  | unary op target line => exact .inl rfl
  | binary op line => exact ⟨.inl rfl, .inl rfl⟩

/-- The element stands where an operand is wanted. -/
def beginsOperand : Part α → Bool
  | .binary .. => false
  | _ => true

theorem openLeft?_toTree {p : Part α} (h : beginsOperand p = true) :
    p.toTree.openLeft? = none ∧ p.toTree.leftPower = unaryPower := by
  cases p with
  | binary op line => exact absurd h Bool.false_ne_true
  | _ => exact ⟨rfl, rfl⟩

/-- A run with operators in front begins where an operand is wanted. -/
theorem Prefixed.head (h : Prefixed ps) : ∃ p rest, ps = p :: rest ∧ beginsOperand p = true := by
  cases h with
  | operand a line => exact ⟨_, _, rfl, rfl⟩
  | unary op target line h => exact ⟨_, _, rfl, rfl⟩

/-- A run begins where an operand is wanted. -/
theorem WellFormed.head {ps : List (Part α)} (h : WellFormed ps) :
    ∃ p rest, ps = p :: rest ∧ beginsOperand p = true := by
  induction h with
  | first h => exact h.head
  | more op line _ _ ih =>
    obtain ⟨p, rest, rfl, hp⟩ := ih
    exact ⟨p, _, rfl, hp⟩

/-- A run ends with an operand. -/
theorem Prefixed.last (h : Prefixed ps) : ∃ a line, ps.getLast? = some (.operand a line) := by
  induction h with
  | operand a line => exact ⟨a, line, rfl⟩
  | unary op target line h ih =>
    obtain ⟨a, line', hl⟩ := ih
    exact ⟨a, line', by simp [List.getLast?_cons, hl]⟩

/-- A run that is well formed ends with an operand. -/
theorem WellFormed.last {ps : List (Part α)} (h : WellFormed ps) :
    ∃ a line, ps.getLast? = some (.operand a line) := by
  cases h with
  | first h => exact h.last
  | more op line _ h' =>
    obtain ⟨a, line', hl⟩ := h'.last
    exact ⟨a, line', by simp [List.getLast?_append, List.getLast?_cons, hl]⟩

/-- What asks on its right fits with what begins an operand. -/
theorem isChain_cons_toTree {p : Part α} {power : Nat} (hp : p.toTree.openRight? = some power)
    (hle : power ≤ unaryPower) (hps : ∃ q rest, ps = q :: rest ∧ beginsOperand q = true)
    (hchain : (ps.map Part.toTree).IsChain Fits) : ((p :: ps).map Part.toTree).IsChain Fits := by
  obtain ⟨q, rest, rfl, hq⟩ := hps
  obtain ⟨hopen, hpower⟩ := openLeft?_toTree hq
  rw [List.map_cons, List.map_cons, List.isChain_cons_cons]
  refine ⟨fits_of_asks_left hp hopen ?_, hchain⟩
  rw [hpower]
  exact hle

theorem Prefixed.isChain (h : Prefixed ps) : (ps.map Part.toTree).IsChain Fits := by
  induction h with
  | operand a line => exact List.isChain_singleton _
  | unary op target line h ih => exact isChain_cons_toTree rfl (Nat.le_refl _) h.head ih

/-- In it, neighbours fit. -/
theorem WellFormed.isChain {ps : List (Part α)} (h : WellFormed ps) :
    (ps.map Part.toTree).IsChain Fits := by
  induction h with
  | first h => exact h.isChain
  | more op line h h' ih =>
    rw [List.map_append, List.isChain_append]
    refine ⟨ih, ?_, ?_⟩
    · exact isChain_cons_toTree rfl (Nat.le_of_lt op.rightPower_lt_unaryPower) h'.head
        h'.isChain
    · -- the left operand ends with an operand, which the operator asks for
      intro x hx y hy
      cases hy
      obtain ⟨a, line', hl⟩ := h.last
      rw [List.getLast?_map, hl] at hx
      cases hx
      exact fits_of_asks_right rfl rfl
        (Nat.lt_trans (Nat.lt_succ_self _) op.rightPower_lt_unaryPower)

/-- **A run of the grammar is sound before anything is moved.** -/
theorem WellFormed.sound (h : WellFormed ps) : Sound (ps.map Part.toTree) := by
  refine ⟨?_, h.isChain, ?_, ?_⟩
  · intro t ht
    obtain ⟨p, _, rfl⟩ := List.mem_map.1 ht
    exact growing_toTree p
  · intro t ht
    obtain ⟨p, rest, rfl, hp⟩ := h.head
    cases ht
    exact (openLeft?_toTree hp).1
  · intro t ht
    obtain ⟨a, line, hl⟩ := h.last
    rw [List.getLast?_map, hl] at ht
    cases ht
    rfl

/-! ## §9. The two readings agree -/

/-- What a collapsed tree stands for is the run it comes from. -/
theorem reading_of_collapse {t : Tree α} (hne : ps ≠ [])
    (h : collapse (ps.map Part.toTree) = .ok t) : t.reading = ps := by
  have hmoves := collapse_moves (by simpa using hne) h
  have hread := hmoves.runReading_eq
  rw [runReading_map_toTree] at hread
  simpa [runReading] using hread

/-- Only a tree without holes is typed. -/
theorem isFull_of_finish {t : Tree Expr} {line : Nat} {e : Expr} (h : finish line t = .ok e) :
    t.isFull = true := by
  induction t generalizing line e with
  | hole => cases h
  | operand a line => rfl
  | unary op target line arg ih =>
    obtain ⟨a, harg, _⟩ := bind_eq_ok.1 h
    exact ih harg
  | binary op line left right ihl ihr =>
    obtain ⟨a, hleft, h⟩ := bind_eq_ok.1 h
    obtain ⟨b, hright, _⟩ := bind_eq_ok.1 h
    show (left.isFull && right.isFull) = true
    rw [ihl hleft, ihr hright]
    rfl

/-- A run that resolves to an expression collapses to a tree without holes
that stands for it. -/
theorem collapse_of_resolve {ps : List (Part Expr)} {e : Expr} (h : resolve ps = .ok e) :
    ∃ t, collapse (ps.map Part.toTree) = .ok t ∧ finish t.line t = .ok e ∧ t.isFull = true ∧
      t.reading = ps := by
  obtain ⟨t, hc, h⟩ := bind_eq_ok.1 h
  have hfull := isFull_of_finish h
  refine ⟨t, hc, h, hfull, reading_of_collapse ?_ hc⟩
  rintro rfl
  rw [List.map_nil, collapse] at hc
  cases hc
  exact absurd hfull Bool.false_ne_true

/-- **Collapsing is precedence climbing.**  A run of the grammar collapses to
a tree without holes that stands for the run, and it is the tree that the
reference reader gives; every other run ends in a fault. -/
theorem collapse_eq_reference :
    (∀ (α : Type) (ps : List (Part α)), WellFormed ps →
      ∃ t, collapse (ps.map Part.toTree) = .ok t ∧ t.isFull = true ∧ t.reading = ps ∧
        reference ps = some t) ∧
    (∀ ps : List (Part Expr), ¬ WellFormed ps → ∃ f, resolve ps = .error f) := by
  constructor
  · intro α ps hwf
    have hne : ps ≠ [] := by
      obtain ⟨p, rest, rfl, _⟩ := hwf.head
      exact List.cons_ne_nil _ _
    obtain ⟨t, hc, hsettled⟩ := collapse_of_sound (by simpa using hne) hwf.sound
    have hread := reading_of_collapse hne hc
    refine ⟨t, hc, hsettled.isFull, hread, ?_⟩
    rw [← hread]
    exact reference_reading hsettled
  · intro ps hwf
    cases hr : resolve ps with
    | error f => exact ⟨f, rfl⟩
    | ok e =>
      -- the tree has no hole and reads as the run, so the run is of the grammar
      obtain ⟨t, _, _, hfull, hread⟩ := collapse_of_resolve hr
      rw [← hread] at hwf
      exact absurd (wellFormed_reading hfull) hwf

/-- `a = -b * c + d`, in which every level change of a run occurs. -/
def sampleRun : List (Part Nat) :=
  [.operand 0 1, .binary .assign 1, .unary .negate none 1, .operand 1 1,
    .binary (.arith .mul) 1, .operand 2 1, .binary (.arith .add) 1, .operand 3 1]

/-- `+ 1`, which lacks an operand. -/
def sampleGap : List (Part Expr) :=
  [.binary (.arith .add) 1, .operand (.literal (.int 1) .int 1) 1]

theorem wellFormed_sampleRun : WellFormed sampleRun :=
  .more _ _ (.more _ _ (.more _ _ (.first (.operand 0 1)) (.unary _ _ _ (.operand 1 1)))
    (.operand 2 1)) (.operand 3 1)

theorem not_wellFormed_sampleGap : ¬ WellFormed sampleGap := by
  intro h
  obtain ⟨p, rest, heq, hp⟩ := h.head
  cases heq
  exact absurd hp Bool.false_ne_true

/-- A run that collapses as climbing says, and one that is refused. -/
theorem collapse_eq_reference_sample :
    (WellFormed sampleRun ∧
      ∃ t, collapse (sampleRun.map Part.toTree) = .ok t ∧ t.isFull = true ∧
        t.reading = sampleRun ∧ reference sampleRun = some t) ∧
    (¬ WellFormed sampleGap ∧ ∃ f, resolve sampleGap = .error f) :=
  ⟨⟨wellFormed_sampleRun, collapse_eq_reference.1 Nat sampleRun wellFormed_sampleRun⟩,
    not_wellFormed_sampleGap, collapse_eq_reference.2 sampleGap not_wellFormed_sampleGap⟩

end Precedence

end MiniC
