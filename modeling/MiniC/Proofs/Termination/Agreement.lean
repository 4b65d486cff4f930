/-
  MiniC.Proofs.Termination.Agreement

  Reading on demand agrees with the outline.

  At a place, the tokens from there on are those that the outline is read
  from.  Reading a phrase on demand ends, gives the phrase of the outline, and
  stops at the place of the tokens that the outline leaves; a phrase that was
  read leaves fewer characters than it found (`Agrees`).  The proof follows the
  recursion of the outline, on the number of tokens.
-/
import MiniC.Proofs.Reading.Relations
import MiniC.Proofs.Scanning.Entries
import MiniC.Proofs.Termination.Demand

namespace MiniC.Scan.Place

open Demand (Turn Loop)
open Outline

variable {p q : Place} {last n m : Nat} {t : Token} {ts : List Token}

/-! ## §1. Places and tokens -/

/-- The tokens from a place on are `ts`, and the text ends on the line `last`. -/
def Stands (p : Place) (last : Nat) (ts : List Token) : Prop := tokensFrom p = ⟨ts, last⟩

/-- The token ahead is the first of those left. -/
theorem ahead_of_stands (h : Stands p last ts) : ahead p = front last ts := by
  by_cases hend : (scan p).1.kind = .endOfFile
  · rw [Stands, Scan.tokensFrom_of_endOfFile hend] at h
    cases h
    show (scan p).1 = ⟨.endOfFile, (scan p).1.line⟩
    rw [← hend]
  · rw [Stands, Scan.tokensFrom_of_ne hend] at h
    cases h
    rfl

namespace Stands

theorem ahead (h : Stands p last (t :: ts)) : ahead p = t := ahead_of_stands h

/-- There is a token to take. -/
theorem ne_endOfFile (h : Stands p last (t :: ts)) : (Place.ahead p).kind ≠ .endOfFile := by
  intro hend
  rw [Stands, Scan.tokensFrom_of_endOfFile hend] at h
  cases h

theorem next (h : Stands p last (t :: ts)) : Stands (next p) last ts := by
  have hne := h.ne_endOfFile
  rw [Stands, Scan.tokensFrom_of_ne hne] at h
  exact congrArg (fun T : Scan.Tokens => (⟨T.list.tail, T.endLine⟩ : Scan.Tokens)) h

/-- A token takes at least one character. -/
theorem fewer (h : Stands p last (t :: ts)) : unread (Place.next p) < unread p :=
  Scan.length_scan_lt h.ne_endOfFile

end Stands

theorem unread_next_le (p : Place) : unread (next p) ≤ unread p := by
  by_cases hend : (scan p).1.kind = .endOfFile
  · rw [unread, next, (Scan.scan_of_endOfFile hend).1]
    exact Nat.zero_le _
  · exact Nat.le_of_lt (Scan.length_scan_lt hend)

/-! ## §2. Agreement -/

/-- The tokens `ts` stand at the place, with fewer than `n` characters unread. -/
structure After (n last : Nat) (ts : List Token) (q : Place) : Prop where
  stands : Stands q last ts
  fewer : unread q < n

theorem After.trans (h : After n last ts q) (hle : n ≤ m) : After m last ts q :=
  ⟨h.stands, Nat.lt_of_lt_of_le h.fewer hle⟩

/-- The place after the first token. -/
theorem Stands.after (h : Stands p last (t :: ts)) : After (unread p) last ts (Place.next p) :=
  ⟨h.next, h.fewer⟩

/-- The place after the first token of what is left. -/
theorem After.next (h : After n last (t :: ts) q) : After n last ts (Place.next q) :=
  h.stands.after.trans (Nat.le_of_lt h.fewer)

/-- Reading ends with a fault, or at the place of the tokens that are left. -/
inductive Leaves (n last : Nat) : Option (List Token) → Option Place → Prop where
  | nothing : Leaves n last none none
  | tokens {ts : List Token} {q : Place} (h : After n last ts q) : Leaves n last (some ts) (some q)

/-- Reading on demand ends with the same phrase, and leaves the same tokens. -/
def Agrees {α : Type} (n last : Nat) (phrase : α) (rest : Option (List Token))
    (x : Option (α × Option Place)) : Prop :=
  ∃ place, x = some (phrase, place) ∧ Leaves n last rest place

section Agreement

variable {α β : Type} {a : α} {rest : Option (List Token)} {x : Option (α × Option Place)}

theorem Leaves.trans {place : Option Place} (h : Leaves n last rest place) (hle : n ≤ m) :
    Leaves m last rest place := by
  cases h with
  | nothing => exact .nothing
  | tokens h => exact .tokens (h.trans hle)

theorem Agrees.trans (h : Agrees n last a rest x) (hle : n ≤ m) : Agrees m last a rest x := by
  obtain ⟨place, hx, hleaves⟩ := h
  exact ⟨place, hx, hleaves.trans hle⟩

theorem Agrees.of_none (h : Agrees n last a none x) : x = some (a, none) := by
  obtain ⟨place, hx, hleaves⟩ := h
  cases hleaves
  exact hx

theorem Agrees.of_some (h : Agrees n last a (some ts) x) :
    ∃ q, x = some (a, some q) ∧ After n last ts q := by
  obtain ⟨place, hx, hleaves⟩ := h
  cases hleaves with
  | tokens h => exact ⟨_, hx, h⟩

/-- A phrase that ends in a fault. -/
theorem Agrees.failed (a : α) : Agrees n last a none (some (a, none)) :=
  ⟨_, rfl, .nothing⟩

/-- A phrase with tokens left. -/
theorem Agrees.left (a : α) (h : After n last ts q) :
    Agrees n last a (some ts) (some (a, some q)) :=
  ⟨_, rfl, .tokens h⟩

/-- The phrase is part of another. -/
theorem Agrees.part (h : Agrees n last a rest x) (hle : n ≤ m) (f : α → β) :
    Agrees m last (f a) rest (do let (a, place) ← x; return (f a, place)) := by
  obtain ⟨place, rfl, hleaves⟩ := h
  exact ⟨place, rfl, hleaves.trans hle⟩

/-- The phrase is part of another, which takes the token that ends it. -/
theorem Agrees.closed {rest : Option (Token × List Token)}
    (h : Agrees n last a (rest.map fun r => r.1 :: r.2) x) (hle : n ≤ m) (f : α → β) :
    Agrees m last (f a) (rest.map Prod.snd)
      (do let (a, place) ← x; return (f a, place.map Place.next)) := by
  obtain ⟨place, rfl, hleaves⟩ := h
  cases rest with
  | none =>
    cases hleaves
    exact .failed _
  | some r =>
    cases hleaves with
    | tokens h => exact .left _ (h.next.trans hle)

end Agreement

/-- A step fails with the same fault, or gives what is said of it. -/
inductive Matches {α β : Type} (R : α → β → Prop) : Except Fault α → Except Fault β → Prop where
  | error (f : Fault) : Matches R (.error f) (.error f)
  | ok {a : α} {b : β} (h : R a b) : Matches R (.ok a) (.ok b)

namespace Matches

variable {α β : Type} {R : α → β → Prop} {x : Except Fault α} {y : Except Fault β}

/-- Where one reader fails, so does the other. -/
theorem fault {f : Fault} (h : Matches R x y) (hx : x = .error f) : y = .error f := by
  cases h with
  | error g =>
    cases hx
    rfl
  | ok h => cases hx

/-- Where one reads something, so does the other. -/
theorem result {a : α} (h : Matches R x y) (hx : x = .ok a) : ∃ b, y = .ok b ∧ R a b := by
  cases h with
  | error g => cases hx
  | ok h =>
    cases hx
    exact ⟨_, rfl, h⟩

end Matches

/-- A step on demand ends, and does so as the step it is compared with. -/
def Answers {α β : Type} (R : α → β → Prop) (x : Except Fault α) (y : Step β) : Prop :=
  ∃ e, y.run = some e ∧ Matches R x e

namespace Answers

variable {α β γ δ : Type} {R : α → β → Prop} {S : γ → δ → Prop} {x : Except Fault α} {y : Step β}

theorem fault {f : Fault} (h : Answers R x y) (hx : x = .error f) : y.run = some (.error f) := by
  obtain ⟨e, hy, he⟩ := h
  rw [hy, he.fault hx]

theorem result {a : α} (h : Answers R x y) (hx : x = .ok a) :
    ∃ b, y.run = some (.ok b) ∧ R a b := by
  obtain ⟨e, hy, he⟩ := h
  obtain ⟨b, rfl, hb⟩ := he.result hx
  exact ⟨b, hy, hb⟩

theorem error (f : Fault) : Answers R (.error f) (throw f : Step β) := ⟨_, rfl, .error f⟩

theorem ok {a : α} {b : β} (h : R a b) : Answers R (.ok a) (pure b : Step β) := ⟨_, rfl, .ok h⟩

/-- A step that has ended. -/
theorem lift {e : Except Fault β} (h : Matches R x e) : Answers R x (liftM e : Step β) :=
  ⟨e, rfl, h⟩

/-- One step after another. -/
theorem bind {f : α → Except Fault γ} {g : β → Step δ} (h : Answers R x y)
    (hk : ∀ a b, R a b → Answers S (f a) (g b)) : Answers S (x >>= f) (y >>= g) := by
  obtain ⟨e, hy, he⟩ := h
  obtain rfl : y = ExceptT.mk (some e) := hy
  cases he with
  | error fault => exact .error fault
  | ok hab => exact hk _ _ hab

/-- A reading that ends comes first. -/
theorem first {c : α} {read : Option α} {z : Except Fault γ} {g : α → Step δ}
    (h : read = some c) (hg : Answers S z (g c)) : Answers S z ((liftM read : Step α) >>= g) := by
  rw [h]
  exact hg

end Answers

/-! ## §3. Single steps -/

/-- What was taken is the same, and the place is that of the tokens left. -/
def Taken {α : Type} (p : Place) (last : Nat) {m : Nat} (r : α × Left m) (s : α × Place) : Prop :=
  s.1 = r.1 ∧ After (unread p) last r.2.1 s.2

/-- A sign is met by both. -/
theorem expect_matches (h : Stands p last ts) (k : Punct) :
    Matches (fun rest q => After (unread p) last rest.1 q) (Outline.expect last k ts)
      (expect k p) := by
  cases ts with
  | nil =>
    rw [expect, ahead_of_stands h]
    exact .error _
  | cons t ts =>
    rw [Outline.expect, expect, h.ahead]
    split
    · exact .ok h.after
    · exact .error _

/-- A name is read by both. -/
theorem name_matches (h : Stands p last ts) :
    Matches (Taken p last) (readName last ts) (name p) := by
  cases ts with
  | nil =>
    rw [name, ahead_of_stands h]
    exact .error _
  | cons t ts =>
    rw [readName, name, h.ahead]
    generalize t.kind = k
    cases k with
    | identifier x => exact .ok ⟨rfl, h.after⟩
    | _ => exact .error _

/-- The stars after a type, none or more. -/
theorem stars_agrees (ty : Ty) (h : Stands p last ts) :
    ∃ q, stars ty p = some ((readStars ty ts).1, q) ∧
      After (unread p + 1) last (readStars ty ts).2.1 q := by
  induction ts generalizing ty p with
  | nil =>
    rw [stars, starsTurn, ahead_of_stands h]
    exact ⟨p, rfl, h, Nat.lt_succ_self _⟩
  | cons t ts ih =>
    rw [stars, starsTurn, h.ahead, readStars]
    by_cases hk : t.kind = .punct .star
    · obtain ⟨q, hq, hafter⟩ := ih (.pointer ty) h.next
      rw [if_pos hk, if_pos hk]
      refine ⟨q, ?_, hafter.trans (Nat.le_succ_of_le h.fewer)⟩
      dsimp only
      rw [hq]
      rfl
    · rw [if_neg hk, if_neg hk]
      exact ⟨p, rfl, h, Nat.lt_succ_self _⟩

/-- A type is read by both. -/
theorem type_answers (h : Stands p last ts) :
    Answers (Taken p last) (readTy last ts) (type p) := by
  cases ts with
  | nil =>
    rw [type, ahead_of_stands h]
    exact .error _
  | cons t ts =>
    rw [type, readTy, h.ahead]
    cases baseTy? t.kind with
    | some base =>
      obtain ⟨q, hq, hafter⟩ := stars_agrees base h.next
      dsimp only
      rw [hq]
      exact .ok ⟨rfl, hafter.trans h.fewer⟩
    | none => exact .error _

/-- A cast is read by both. -/
theorem cast_answers (h : Stands p last ts) :
    Answers (Taken p last) (readCast last ts) (cast p) := by
  refine (type_answers h).bind fun ⟨ty, rest⟩ ⟨ty', q⟩ hty => ?_
  obtain ⟨rfl, hafter⟩ := hty
  refine (Answers.lift (expect_matches hafter.stands .rparen)).bind fun rest' q' hparen => ?_
  exact .ok ⟨rfl, hparen.trans (Nat.le_of_lt hafter.fewer)⟩

theorem isType_ahead (h : Stands p last ts) : (ahead p).kind.isType = startsType ts := by
  rw [ahead_of_stands h]
  cases ts <;> rfl

/-- The token ahead is not of a kind that does not stand first. -/
theorem kind_front_ne {k : Kind} (hk : k ≠ .endOfFile)
    (hne : ∀ line after, ts = ⟨k, line⟩ :: after → False) : ¬ (front last ts).kind = k := by
  rintro rfl
  cases ts with
  | nil => exact hk rfl
  | cons t ts => exact hne _ _ rfl

/-! ## §4. Expressions -/

section Turns

variable {ob ob' : Bool} {stop : Stop} {node' : Node} {e : Run} {r : Run × Option Place}

theorem node_atEnd (ob : Bool) (h : Stands p last []) :
    node ob p = some (.broken (.unexpected (front last [])), none) := by
  rw [node, ahead_of_stands h]
  rfl

/-- Reading a run is the loop of its turn. -/
theorem expr_loop (stop : Stop) :
    Loop (fun s => exprTurn stop s.1 s.2) fun s => expr stop s.1 s.2 := by
  rintro ⟨ob, p⟩
  dsimp only
  rw [expr]
  exact bind_congr fun t => by cases t <;> rfl

theorem expr_of_ends (h : exprTurn stop ob p = some (.ends r)) : expr stop ob p = some r :=
  (expr_loop stop).of_ends (s := (ob, p)) h

theorem expr_of_goesOn {wrap : Run × Option Place → Run × Option Place}
    (h : exprTurn stop ob p = some (.goesOn wrap (ob', q))) :
    expr stop ob p = do return wrap (← expr stop ob' q) :=
  (expr_loop stop).of_goesOn (s := (ob, p)) h

theorem moreArguments_loop : Loop argumentsTurn moreArguments := by
  intro p
  rw [moreArguments]
  exact bind_congr fun t => by cases t <;> rfl

theorem exprTurn_broken (hstop : ¬ stop.ends (ahead p).kind = true)
    (hnode : node ob p = some (node', none)) :
    exprTurn stop ob p = some (.ends (.last node', none)) := by
  rw [exprTurn, if_neg hstop, hnode]
  rfl

theorem exprTurn_last (hstop : ¬ stop.ends (ahead p).kind = true)
    (hnode : node ob p = some (node', some q)) (hq : stop.ends (ahead q).kind = true) :
    exprTurn stop ob p = some (.ends (.last node', some q)) := by
  rw [exprTurn, if_neg hstop, hnode]
  exact if_pos hq

/-- A turn that goes on adds one part. -/
theorem exprTurn_more (hstop : ¬ stop.ends (ahead p).kind = true)
    (hnode : node ob p = some (node', some q)) (hq : ¬ stop.ends (ahead q).kind = true) :
    exprTurn stop ob p =
      some (.goesOn (fun r => (.more node' r.1, r.2)) (node'.isOperand, q)) := by
  rw [exprTurn, if_neg hstop, hnode]
  exact if_neg hq

theorem argumentsTurn_broken (hexpr : expr .argument false p = some (e, none)) :
    argumentsTurn p = some (.ends (.arg e .none, none)) := by
  rw [argumentsTurn, hexpr]
  rfl

theorem argumentsTurn_comma (hexpr : expr .argument false p = some (e, some q))
    (hq : (ahead q).kind = .punct .comma) :
    argumentsTurn p = some (.goesOn (fun r => (.arg e r.1, r.2)) (next q)) := by
  rw [argumentsTurn, hexpr]
  exact if_pos hq

theorem argumentsTurn_last (hexpr : expr .argument false p = some (e, some q))
    (hq : ¬ (ahead q).kind = .punct .comma) :
    argumentsTurn p = some (.ends (.arg e .none, some (next q))) := by
  rw [argumentsTurn, hexpr]
  exact if_neg hq

/-- The end of the text ends no expression. -/
theorem not_ends_atEnd (stop : Stop) (h : Stands p last []) :
    ¬ stop.ends (ahead p).kind = true := by
  rw [ahead_of_stands h]
  cases stop <;> exact Bool.false_ne_true

theorem expr_atEnd (stop : Stop) (ob : Bool) (h : Stands p last []) :
    expr stop ob p = some (.last (.broken (.unexpected (front last []))), none) :=
  expr_of_ends (exprTurn_broken (not_ends_atEnd stop h) (node_atEnd ob h))

end Turns

end MiniC.Scan.Place

namespace MiniC.Outline

open Scan.Place

variable {last : Nat}

-- the recursion is that of the outline; on demand there is none to go by
mutual

/-- An element is read as the outline has it. -/
theorem NodeRead.agrees {p : Scan.Place} {ob : Bool} {t : Token} {ts : List Token} {n : Node}
    {rest : Option (List Token)} : NodeRead last ob t ts n rest →
    Stands p last (t :: ts) → Agrees (unread p) last n rest (node ob p)
  | .int hk, h => by
    rw [node, h.ahead, hk]
    exact .left _ h.after
  | .float hk, h => by
    rw [node, h.ahead, hk]
    exact .left _ h.after
  | .call hk hargs, h => by
    rw [node, h.ahead, hk]
    dsimp only
    rw [h.next.ahead, if_pos rfl]
    exact (hargs.agrees h.next.next).part (Nat.le_of_lt (Nat.lt_trans h.next.fewer h.fewer))
      (Node.call _ t.line)
  | .name hk hne, h => by
    rw [node, h.ahead, hk]
    dsimp only
    rw [ahead_of_stands h.next, if_neg (kind_front_ne (by decide) hne)]
    exact .left _ h.after
  | .cast hk hty hcast, h => by
    obtain ⟨⟨ty, q⟩, hq, rfl, hafter⟩ := (cast_answers h.next).result hcast
    rw [node, h.ahead, hk]
    dsimp only
    rw [isType_ahead h.next, if_pos hty, hq]
    exact .left _ (hafter.trans (Nat.le_of_lt h.fewer))
  | .badCast hk hty hcast, h => by
    rw [node, h.ahead, hk]
    dsimp only
    rw [isType_ahead h.next, if_pos hty, (cast_answers h.next).fault hcast]
    exact .failed _
  | .group hk hty hrun, h => by
    rw [node, h.ahead, hk]
    dsimp only
    rw [isType_ahead h.next, if_neg hty]
    exact (hrun.agrees h.next).closed (Nat.le_of_lt h.fewer) Node.group
  | .operator _ hk hop, h => by
    rw [node]
    simp only [h.ahead, hk, hop]
    exact .left _ h.after
  | .noOperator _ hk hop, h => by
    rw [node]
    simp only [h.ahead, hk, hop]
    exact .failed _
  | .unexpected hint hfloat hid hpunct, h => by
    rw [node, h.ahead]
    split
    · exact absurd ‹_› (hint _)
    · exact absurd ‹_› (hfloat _)
    · exact absurd ‹_› (hid _)
    · exact absurd ‹_› (hpunct _)
    · exact absurd ‹_› (hpunct _)
    · exact .failed _

/-- An expression is read as the outline has it, up to the token that ends it. -/
theorem RunRead.agrees {p : Scan.Place} {stop : Stop} {ob : Bool} {ts : List Token} {e : Run}
    {rest : Option (Token × List Token)} : RunRead last stop ob ts e rest →
    Stands p last ts → Agrees (unread p) last e (rest.map fun r => r.1 :: r.2) (expr stop ob p)
  | .nil, h => by
    rw [expr_atEnd stop ob h]
    exact .failed _
  | .atStop hstop, h => by
    rw [expr, exprTurn, h.ahead, if_pos hstop]
    exact .failed _
  | .broken hstop hnode, h => by
    rw [← h.ahead] at hstop
    rw [expr_of_ends (exprTurn_broken hstop (hnode.agrees h).of_none)]
    exact .failed _
  | .unended hstop hnode, h => by
    obtain ⟨q, hq, hafter⟩ := (hnode.agrees h).of_some
    rw [← h.ahead] at hstop
    -- the end of the text is no terminator, so one more turn is taken and fails
    rw [expr_of_goesOn (exprTurn_more hstop hq (not_ends_atEnd stop hafter.stands)),
      expr_atEnd _ _ hafter.stands]
    exact .failed _
  | .last hstop hnode hs, h => by
    obtain ⟨q, hq, hafter⟩ := (hnode.agrees h).of_some
    rw [← h.ahead] at hstop
    rw [← hafter.stands.ahead] at hs
    rw [expr_of_ends (exprTurn_last hstop hq hs)]
    exact .left _ hafter
  | .more hstop hnode hs hrun, h => by
    obtain ⟨q, hq, hafter⟩ := (hnode.agrees h).of_some
    have hr := hrun.agrees hafter.stands
    rw [← h.ahead] at hstop
    rw [← hafter.stands.ahead] at hs
    rw [expr_of_goesOn (exprTurn_more hstop hq hs)]
    exact hr.part (Nat.le_of_lt hafter.fewer) (Run.more _)

/-- Arguments are read as the outline has them. -/
theorem ArgsRead.agrees {p : Scan.Place} {ts : List Token} {args : Args}
    {rest : Option (List Token)} : ArgsRead last ts args rest →
    Stands p last ts → Agrees (unread p) last args rest (arguments p)
  | .none, h => by
    rw [arguments, h.ahead, if_pos rfl]
    exact .left _ h.after
  | .some hne hmore, h => by
    rw [arguments, ahead_of_stands h, if_neg (kind_front_ne (by decide) hne)]
    exact hmore.agrees h

/-- One argument and those after it are read as the outline has them. -/
theorem MoreArgsRead.agrees {p : Scan.Place} {ts : List Token} {args : Args}
    {rest : Option (List Token)} : MoreArgsRead last ts args rest →
    Stands p last ts → Agrees (unread p) last args rest (moreArguments p)
  | .broken hrun, h => by
    rw [moreArguments_loop.of_ends (argumentsTurn_broken (hrun.agrees h).of_none)]
    exact .failed _
  | .comma hrun hs hmore, h => by
    obtain ⟨q, hq, hafter⟩ := (hrun.agrees h).of_some
    have hargs := hmore.agrees hafter.stands.next
    rw [moreArguments_loop.of_goesOn (argumentsTurn_comma hq (hafter.stands.ahead ▸ hs))]
    exact hargs.part (Nat.le_of_lt hafter.next.fewer) (Args.arg _)
  | .last hrun hs, h => by
    obtain ⟨q, hq, hafter⟩ := (hrun.agrees h).of_some
    rw [moreArguments_loop.of_ends (argumentsTurn_last hq (hafter.stands.ahead ▸ hs))]
    exact .left _ hafter.next

end

end MiniC.Outline
