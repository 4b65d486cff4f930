/-
  MiniC.Proofs.Termination.Statements

  Declarations, statements and blocks read on demand.

  As for expressions, the proof follows the recursion of the outline; here it
  runs through statements, blocks and the tests that follow one another.
-/
import MiniC.Proofs.Reading.Equations
import MiniC.Proofs.Termination.Agreement

namespace MiniC.Scan.Place

open Demand (Turn Loop)
open Outline

variable {p q : Place} {last : Nat} {t : Token} {ts : List Token}

/-! ## §1. Declarations -/

/-- A run is read by both. -/
theorem expr_agrees (stop : Stop) (ob : Bool) (h : Stands p last ts) :
    Agrees (unread p) last (readRun last stop ob ts).1
      ((readRun last stop ob ts).2.map fun r => r.1 :: r.2.1) (expr stop ob p) := by
  have hagrees := ((expressions_read last).2.1 stop ob ts).agrees h
  rw [Option.map_map] at hagrees
  exact hagrees

/-- The token that ends the expression is taken with it. -/
theorem expr_closed {α : Type} {n : Nat} (stop : Stop) (ob : Bool) (h : Stands p last ts)
    (hle : unread p ≤ n) (f : Run → α) :
    Agrees n last (f (readRun last stop ob ts).1) ((readRun last stop ob ts).2.map (·.2.1))
      (do let (e, place) ← expr stop ob p; return (f e, place.map next)) := by
  have hagrees := (((expressions_read last).2.1 stop ob ts).agrees h).closed hle f
  rw [Option.map_map] at hagrees
  exact hagrees

theorem lengths_loop : Loop lengthsTurn lengths := by
  intro p
  rw [lengths]
  exact bind_congr fun t => by cases t <;> rfl

/-- Lengths may be missing, so nothing need be taken. -/
theorem lengths_agrees (h : Stands p last ts) :
    Agrees (unread p + 1) last (readLengths last ts).1 ((readLengths last ts).2.map (·.1))
      (lengths p) := by
  induction ts using readLengths.induct last generalizing p with
  | case1 line after e hrun =>
    have he := expr_agrees .bracket false h.next
    rw [hrun] at he
    have hturn : lengthsTurn p = some (.ends ([e], none)) := by
      rw [lengthsTurn, h.ahead, if_pos rfl, he.of_none]
      rfl
    rw [readLengths_broken hrun, lengths_loop.of_ends hturn]
    exact .failed _
  | case2 line after e s rest hrun es rest' hmore ih =>
    have he := expr_agrees .bracket false h.next
    rw [hrun] at he
    obtain ⟨q, hq, hafter⟩ := he.of_some
    have hes := ih hafter.stands.next
    rw [hmore] at hes
    have hturn : lengthsTurn p = some (.goesOn (fun r => (e :: r.1, r.2)) (next q)) := by
      rw [lengthsTurn, h.ahead, if_pos rfl, hq]
      rfl
    rw [readLengths_more hrun hmore, Option.map_map, lengths_loop.of_goesOn hturn]
    have hle := Nat.lt_trans hafter.next.fewer h.fewer
    exact hes.part (Nat.succ_le_succ (Nat.le_of_lt hle)) (e :: ·)
  | case3 ts hne =>
    have hturn : lengthsTurn p = some (.ends ([], some p)) := by
      rw [lengthsTurn, ahead_of_stands h, if_neg (kind_front_ne (by decide) hne)]
    rw [readLengths_none hne, lengths_loop.of_ends hturn]
    exact .left _ ⟨h, Nat.lt_succ_self _⟩

/-- An initial value is read by both. -/
theorem initial_agrees (h : Stands p last ts) :
    Agrees (unread p) last (readInitial last ts).1 ((readInitial last ts).2.map (·.1))
      (initial p) := by
  unfold readInitial
  split
  · rw [initial, h.ahead, if_pos rfl, Option.map_map]
    exact expr_closed .semicolon false h.next (Nat.le_of_lt h.fewer) Initial.value
  · rename_i hne
    rw [initial, ahead_of_stands h, if_neg (kind_front_ne (by decide) hne)]
    cases hsemi : Outline.expect last .semicolon ts with
    | ok rest =>
      obtain ⟨q, hq, hafter⟩ := (expect_matches h .semicolon).result hsemi
      rw [hq]
      exact .left _ hafter
    | error f =>
      rw [(expect_matches h .semicolon).fault hsemi]
      exact .failed _

/-- What was read is the same, and so are the tokens left. -/
def ReadTo {α : Type} (p : Place) (last : Nat) {m : Nat} (r : α × Option (Left m))
    (s : α × Option Place) : Prop :=
  s.1 = r.1 ∧ Leaves (unread p) last (r.2.map (·.1)) s.2

/-- A declaration is read by both. -/
theorem declaration_answers (h : Stands p last ts) :
    Answers (ReadTo p last) (readDeclaration last ts) (declaration p) := by
  refine (type_answers h).bind fun ⟨base, afterTy⟩ ⟨base', q⟩ hty => ?_
  obtain ⟨rfl, hty⟩ := hty
  refine (Answers.lift (name_matches hty.stands)).bind fun ⟨x, afterName⟩ ⟨x', q'⟩ hname => ?_
  obtain ⟨rfl, hname⟩ := hname
  have hls := lengths_agrees hname.stands
  dsimp only
  cases hread : readLengths last afterName.1 with
  | mk ls rest =>
    rw [hread] at hls
    cases rest with
    | none => exact .first hls.of_none (.ok ⟨rfl, .nothing⟩)
    | some afterLengths =>
      -- lengths may take nothing, but the type and the name have taken something
      obtain ⟨r, hr, hafter⟩ := hls.of_some
      obtain ⟨place, hplace, hleaves⟩ := initial_agrees hafter.stands
      refine .first hr (.first hplace (.ok ⟨rfl, ?_⟩))
      rw [Option.map_map]
      exact hleaves.trans (Nat.le_trans (Nat.le_of_lt_succ hafter.fewer)
        (Nat.le_of_lt (Nat.lt_trans hname.fewer hty.fewer)))

/-! ## §2. Statements -/

/-- A condition is read by both. -/
theorem condition_agrees {cond : Run} {rest : Option (Left ts.length)} (h : Stands p last ts)
    (hread : readCondition last ts = (cond, rest)) :
    Agrees (unread p) last cond (rest.map (·.1)) (condition p) := by
  rw [condition]
  unfold readCondition at hread
  cases hparen : Outline.expect last .lparen ts with
  | error f =>
    rw [hparen] at hread
    cases hread
    rw [(expect_matches h .lparen).fault hparen]
    exact .failed _
  | ok rest =>
    obtain ⟨q, hq, hafter⟩ := (expect_matches h .lparen).result hparen
    rw [hparen] at hread
    cases hread
    rw [hq, Option.map_map]
    exact expr_closed .paren false hafter.stands (Nat.le_of_lt hafter.fewer) id

/-- The semicolon of a jump is read by both. -/
theorem jumpEnd_agrees {fault : Option Fault} {rest : Option (Left ts.length)}
    (h : Stands p last ts) (hread : readJumpEnd last ts = (fault, rest)) :
    Agrees (unread p) last fault (rest.map (·.1)) (some (jumpEnd p)) := by
  rw [jumpEnd]
  unfold readJumpEnd at hread
  cases hsemi : Outline.expect last .semicolon ts with
  | error f =>
    rw [hsemi] at hread
    cases hread
    rw [(expect_matches h .semicolon).fault hsemi]
    exact .failed _
  | ok rest =>
    obtain ⟨q, hq, hafter⟩ := (expect_matches h .semicolon).result hsemi
    rw [hsemi] at hread
    cases hread
    rw [hq]
    exact .left _ hafter

/-- What is ahead after the block of a test. -/
inductive AheadOfElse (p : Place) (last : Nat) {n : Nat} : AfterTest n → Prop where
  | nothing (helse : ¬ (ahead p).kind = .keyword .kwElse) : AheadOfElse p last .nothing
  | test {after : Left n} (helse : (ahead p).kind = .keyword .kwElse)
      (hif : (ahead (next p)).kind = .keyword .kwIf)
      (h : After (unread p) last after.1 (next (next p))) : AheadOfElse p last (.test after)
  | block {after : Left n} (helse : (ahead p).kind = .keyword .kwElse)
      (hif : ¬ (ahead (next p)).kind = .keyword .kwIf)
      (h : After (unread p) last after.1 (next p)) : AheadOfElse p last (.block after)

/-- What follows a block is seen by both. -/
theorem aheadOfElse (h : Stands p last ts) : AheadOfElse p last (afterTest ts) := by
  cases ts with
  | nil =>
    refine .nothing ?_
    rw [ahead_of_stands h]
    exact Kind.noConfusion
  | cons t ts =>
    by_cases ht : t.kind = .keyword .kwElse
    · have helse : (ahead p).kind = .keyword .kwElse := h.ahead ▸ ht
      cases ts with
      | nil =>
        rw [afterTest_end ht]
        refine .block helse ?_ h.after
        rw [ahead_of_stands h.next]
        exact Kind.noConfusion
      | cons s rest =>
        by_cases hs : s.kind = .keyword .kwIf
        · rw [afterTest_if ht hs]
          exact .test helse (h.next.ahead ▸ hs) h.after.next
        · rw [afterTest_other ht hs]
          exact .block helse (h.next.ahead ▸ hs) h.after
    · rw [afterTest_none ht]
      exact .nothing (h.ahead ▸ ht)

theorem blockRest_loop : Loop blockTurn blockRest := by
  intro p
  rw [blockRest]
  exact bind_congr fun t => by cases t <;> rfl

/-- What a branch does after its condition. -/
theorem branch_of_condition {cond : Run} (h : condition p = some (cond, some q)) :
    branch p = do
      match ← block q with
      | (body, none) => return ((cond, body, .nothing), none)
      | (body, some q) =>
        let (other, rest) ← otherwise q
        return ((cond, body, other), rest) := by
  rw [branch, h]
  rfl

theorem blockTurn_broken {s : Outline.Stmt} (hk : ¬ (ahead p).kind = .punct .rbrace)
    (hend : (ahead p).kind ≠ .endOfFile) (hstmt : stmt p = some (s, none)) :
    blockTurn p = some (.ends ([s], none)) := by
  rw [blockTurn, if_neg hk, if_neg hend, hstmt]
  rfl

theorem blockTurn_more {s : Outline.Stmt} (hk : ¬ (ahead p).kind = .punct .rbrace)
    (hend : (ahead p).kind ≠ .endOfFile) (hstmt : stmt p = some (s, some q)) :
    blockTurn p = some (.goesOn (fun r => (s :: r.1, r.2)) q) := by
  rw [blockTurn, if_neg hk, if_neg hend, hstmt]
  rfl

end MiniC.Scan.Place

namespace MiniC.Outline

open Scan.Place

variable {last : Nat}

mutual

/-- A statement is read as the outline has it. -/
theorem StmtRead.agrees {p : Scan.Place} {ts : List Token} {s : Stmt} {rest : Option (List Token)} :
    StmtRead last ts s rest → Stands p last ts → Agrees (unread p) last s rest (stmt p)
  | .nil hrun, h => by
    rw [stmt, ahead_of_stands h]
    exact (hrun.agrees h).closed (Nat.le_refl _) Stmt.expr
  | .declare hty hdecl, h => by
    obtain ⟨⟨d, place⟩, hd, rfl, hleaves⟩ := (declaration_answers h).result hdecl
    rw [stmt, h.ahead, if_pos hty, hd]
    exact ⟨place, rfl, hleaves⟩
  | .badDeclaration hty hdecl, h => by
    rw [stmt, h.ahead, if_pos hty, (declaration_answers h).fault hdecl]
    exact .failed _
  | .ret hk, h => by
    rw [stmt, h.ahead, hk]
    dsimp only
    rw [h.next.ahead, if_pos rfl]
    exact .left _ (h.next.after.trans (Nat.le_of_lt h.fewer))
  | .retValue hk hne hrun, h => by
    rw [stmt, h.ahead, hk]
    dsimp only
    rw [ahead_of_stands h.next, if_neg (kind_front_ne (by decide) hne)]
    exact (hrun.agrees h.next).closed (Nat.le_of_lt h.fewer) Stmt.retValue
  | .branch hk hbranch, h => by
    rw [stmt, h.ahead, hk]
    exact (hbranch.agrees h.next).part (Nat.le_of_lt h.fewer)
      fun b => Stmt.branch b.1 b.2.1 b.2.2
  | .badLoop hk hcond, h => by
    rw [stmt, h.ahead, hk]
    dsimp only
    rw [(condition_agrees h.next hcond).of_none]
    exact .failed _
  | .loop hk hcond hblock, h => by
    obtain ⟨q, hq, hafter⟩ := (condition_agrees h.next hcond).of_some
    rw [stmt, h.ahead, hk]
    dsimp only
    rw [hq]
    exact (hblock.agrees hafter.stands).part (Nat.le_of_lt (Nat.lt_trans hafter.fewer h.fewer))
      (Stmt.loop _)
  | .leave hk hend, h => by
    rw [stmt, h.ahead, hk]
    exact (jumpEnd_agrees h.next hend).part (Nat.le_of_lt h.fewer) (Stmt.leave _)
  | .again hk hend, h => by
    rw [stmt, h.ahead, hk]
    exact (jumpEnd_agrees h.next hend).part (Nat.le_of_lt h.fewer) (Stmt.again _)
  | .expr hty hrun hret hif hwhile hbreak hcontinue, h => by
    rw [stmt, h.ahead, if_neg hty]
    split
    · exact absurd ‹_› hret
    · exact absurd ‹_› hif
    · exact absurd ‹_› hwhile
    · exact absurd ‹_› hbreak
    · exact absurd ‹_› hcontinue
    · exact (hrun.agrees h).closed (Nat.le_refl _) Stmt.expr

/-- A block is read as the outline has it. -/
theorem BlockRead.agrees {p : Scan.Place} {ts : List Token} {body : List Stmt}
    {rest : Option (List Token)} : BlockRead last ts body rest →
    Stands p last ts → Agrees (unread p) last body rest (Scan.Place.block p)
  | .broken hbrace, h => by
    rw [Scan.Place.block, (expect_matches h .lbrace).fault hbrace]
    exact .failed _
  | .ok hbrace hrest, h => by
    obtain ⟨q, hq, hafter⟩ := (expect_matches h .lbrace).result hbrace
    rw [Scan.Place.block, hq]
    exact (hrest.agrees hafter.stands).trans (Nat.le_of_lt hafter.fewer)

/-- A block after its brace is read as the outline has it. -/
theorem BlockRestRead.agrees {p : Scan.Place} {ts : List Token} {body : List Stmt}
    {rest : Option (List Token)} : BlockRestRead last ts body rest →
    Stands p last ts → Agrees (unread p) last body rest (blockRest p)
  | .nil, h => by
    have hturn : blockTurn p =
        some (.ends ([.broken (.expected (.exactly .rbrace) (front last []))], none)) := by
      rw [blockTurn, ahead_of_stands h]
      rfl
    rw [blockRest_loop.of_ends hturn]
    exact .failed _
  | .ends hk, h => by
    have hturn : blockTurn p = some (.ends ([], some (next p))) := by
      rw [blockTurn, h.ahead, if_pos hk]
    rw [blockRest_loop.of_ends hturn]
    exact .left _ h.after
  | .broken hk hstmt, h => by
    rw [← h.ahead] at hk
    rw [blockRest_loop.of_ends (blockTurn_broken hk h.ne_endOfFile (hstmt.agrees h).of_none)]
    exact .failed _
  | .more hk hstmt hrest, h => by
    obtain ⟨q, hq, hafter⟩ := (hstmt.agrees h).of_some
    have hb := hrest.agrees hafter.stands
    rw [← h.ahead] at hk
    rw [blockRest_loop.of_goesOn (blockTurn_more hk h.ne_endOfFile hq)]
    exact hb.part (Nat.le_of_lt hafter.fewer) (_ :: ·)

/-- A test is read as the outline has it. -/
theorem BranchRead.agrees {p : Scan.Place} {ts : List Token} {b : Run × List Stmt × Else}
    {rest : Option (List Token)} : BranchRead last ts b rest →
    Stands p last ts → Agrees (unread p) last b rest (branch p)
  | .badCondition hcond, h => by
    rw [branch, (condition_agrees h hcond).of_none]
    exact .failed _
  | .badBlock hcond hblock, h => by
    obtain ⟨q, hq, hafter⟩ := (condition_agrees h hcond).of_some
    rw [branch_of_condition hq, (hblock.agrees hafter.stands).of_none]
    exact .failed _
  | .ok hcond hblock helse, h => by
    obtain ⟨q, hq, hafter⟩ := (condition_agrees h hcond).of_some
    obtain ⟨r, hr, hbody⟩ := (hblock.agrees hafter.stands).of_some
    have ho := helse.agrees hbody.stands
    rw [branch_of_condition hq, hr]
    exact ho.part (Nat.le_trans hbody.fewer (Nat.le_of_lt hafter.fewer)) (_, _, ·)

/-- What follows the block of a test is read as the outline has it. -/
theorem ElseRead.agrees {p : Scan.Place} {ts : List Token} {e : Else} {rest : Option (List Token)} :
    ElseRead last ts e rest → Stands p last ts → Agrees (unread p + 1) last e rest (otherwise p)
  | .nothing hafter, h => by
    have hahead := aheadOfElse h
    rw [hafter] at hahead
    cases hahead with
    | nothing helse =>
      rw [otherwise, if_neg helse]
      exact .left _ ⟨h, Nat.lt_succ_self _⟩
  | .test hafter hbranch, h => by
    have hahead := aheadOfElse h
    rw [hafter] at hahead
    cases hahead with
    | test helse hif hnext =>
      rw [otherwise, if_pos helse, if_pos hif]
      exact (hbranch.agrees hnext.stands).part (Nat.le_succ_of_le (Nat.le_of_lt hnext.fewer))
        fun b => Else.branch b.1 b.2.1 b.2.2
  | .block hafter hblock, h => by
    have hahead := aheadOfElse h
    rw [hafter] at hahead
    cases hahead with
    | block helse hif hnext =>
      rw [otherwise, if_pos helse, if_neg hif]
      exact (hblock.agrees hnext.stands).part (Nat.le_succ_of_le (Nat.le_of_lt hnext.fewer))
        Else.block

end

end MiniC.Outline
