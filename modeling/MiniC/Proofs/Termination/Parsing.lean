/-
  MiniC.Proofs.Termination.Parsing

  Parsing ends on every text.

  From every place, each phrase is read to its end; one that is read without a
  fault takes at least one character (`Reads`).  Each loop takes turns that end,
  and a turn that is not the last leaves a smaller state (`Ends`): fewer
  characters, or a shorter run of nodes.  Nothing that is read on demand counts
  down, and yet the items of every text are found, as `parse` has them.
-/
import MiniC.Compile
import MiniC.Proofs.Precedence.Collapsing
import MiniC.Proofs.Termination.Items

namespace MiniC.Scan.Place

open Demand (Turn Ends)
open Outline

variable {p q : Place} {last n : Nat} {ts : List Token}

/-! ## §1. Phrases -/

theorem stands (p : Place) : Stands p (tokensFrom p).endLine (tokensFrom p).list := rfl

/-- The end of the text stands after the end of the text. -/
theorem Stands.tail (h : Stands p last ts) : Stands (Place.next p) last ts.tail := by
  cases ts with
  | nil =>
    -- the end is found again, on the same line
    have hend : (Place.ahead p).kind = .endOfFile := by rw [ahead_of_stands h]; rfl
    have hagain : Scan.scan (Place.next p) = Scan.scan p := Scan.scan_scan_of_endOfFile hend
    rw [Stands, Scan.tokensFrom_of_endOfFile hend] at h
    rw [Stands, Scan.tokensFrom_of_endOfFile (hagain ▸ hend), hagain]
    exact h
  | cons t ts => exact h.next

/-- An operand or operator is read by both, also at the end. -/
theorem node_agrees (ob : Bool) (h : Stands p last ts) :
    Agrees (unread p) last (readNode last ob (front last ts) ts.tail).1
      ((readNode last ob (front last ts) ts.tail).2.map (·.1)) (node ob p) := by
  cases ts with
  | nil =>
    have hread : NodeRead last ob (front last []) [] _ none :=
      .unexpected (fun _ => Kind.noConfusion) (fun _ => Kind.noConfusion)
        (fun _ => Kind.noConfusion) fun _ => Kind.noConfusion
    obtain ⟨rest, hread, hrest⟩ := eq_of_plain hread.eq
    rw [node_atEnd ob h, List.tail_nil, hread]
    dsimp only
    rw [hrest]
    exact .failed _
  | cons t ts => exact ((expressions_read last).1 ob t ts).agrees h

/-- Reading at a place where the tokens `ts` stand: each phrase is read to its
end as the outline has it, and takes at least one character unless it has a
fault. -/
structure Reads (p : Place) (last : Nat) (ts : List Token) : Prop where
  token : (ahead p).kind ≠ .endOfFile → unread (next p) < unread p
  node (ob : Bool) : Agrees (unread p) last (readNode last ob (front last ts) ts.tail).1
    ((readNode last ob (front last ts) ts.tail).2.map (·.1)) (node ob p)
  expr (stop : Stop) (ob : Bool) : Agrees (unread p) last (readRun last stop ob ts).1
    ((readRun last stop ob ts).2.map fun r => r.1 :: r.2.1) (expr stop ob p)
  stmt : Agrees (unread p) last (readStmt last ts).1 ((readStmt last ts).2.map (·.1)) (stmt p)
  imported : Agrees (unread p) last (readImport last ts.tail).1
    ((readImport last ts.tail).2.map (·.1)) (imported p)
  function : Agrees (unread p) last (readFunction last ts).1
    ((readFunction last ts).2.map (·.1)) (function p)
  global : Agrees (unread p) last (readGlobal last ts).1
    ((readGlobal last ts).2.map (·.1)) (global p)

/-- All readers of one token agree. -/
theorem reads (h : Stands p last ts) : Reads p last ts where
  token := Scan.length_scan_lt
  node ob := node_agrees ob h
  expr stop ob := expr_agrees stop ob h
  stmt := ((statements_read last).1 ts).agrees h
  imported := imported_agrees h.tail
  function := function_agrees h
  global := global_agrees h

/-! ## §2. Loops -/

/-- What is read is read to its end, with fewer characters left. -/
theorem Agrees.ends {α : Type} {a : α} {rest : Option (List Token)}
    {x : Option (α × Option Place)} (h : Agrees n last a rest x) :
    ∃ place, x = some (a, place) ∧ ∀ q, place = some q → unread q < n := by
  obtain ⟨place, hx, hleaves⟩ := h
  refine ⟨place, hx, ?_⟩
  rintro q rfl
  cases hleaves with
  | tokens h => exact h.fewer

/-- What was taken is fewer tokens to read. -/
theorem Matches.fewer {α : Type} {m : Nat} {x : Except Fault (α × Left m)}
    {y : Except Fault (α × Place)} {a : α} (h : Matches (Taken p last) x y)
    (hy : y = .ok (a, q)) : unread q < unread p := by
  cases h with
  | error f => cases hy
  | ok h =>
    cases hy
    exact h.2.fewer

/-- The loop over stars ends. -/
theorem stars_ends :
    Ends (fun s => unread s.2) (fun s => some (starsTurn s.1 s.2)) (fun s => stars s.1 s.2) where
  turns := by
    rintro ⟨ty, p⟩
    dsimp only
    rw [stars]
    cases starsTurn ty p <;> rfl
  shrinks := by
    rintro ⟨ty, p⟩
    refine ⟨_, rfl, ?_⟩
    dsimp only
    rw [starsTurn]
    split
    · rename_i hstar
      exact Scan.length_scan_lt (hstar ▸ Kind.noConfusion)
    · trivial

/-- The loop over the parts of a run ends. -/
theorem expr_ends (stop : Stop) :
    Ends (fun s => unread s.2) (fun s => exprTurn stop s.1 s.2) (fun s => expr stop s.1 s.2) where
  turns := expr_loop stop
  shrinks := by
    rintro ⟨ob, p⟩
    dsimp only
    by_cases hstop : stop.ends (ahead p).kind = true
    · rw [exprTurn, if_pos hstop]
      exact ⟨_, rfl, trivial⟩
    · obtain ⟨place, hnode, hfewer⟩ := (node_agrees ob (stands p)).ends
      cases place with
      | none => exact ⟨_, exprTurn_broken hstop hnode, trivial⟩
      | some q =>
        by_cases hq : stop.ends (ahead q).kind = true
        · exact ⟨_, exprTurn_last hstop hnode hq, trivial⟩
        · exact ⟨_, exprTurn_more hstop hnode hq, hfewer q rfl⟩

/-- The loop over arguments ends. -/
theorem arguments_ends : Ends unread argumentsTurn moreArguments where
  turns := moreArguments_loop
  shrinks p := by
    obtain ⟨place, he, hfewer⟩ := (expr_agrees .argument false (stands p)).ends
    rw [argumentsTurn, he]
    cases place with
    | none => exact ⟨_, rfl, trivial⟩
    | some q =>
      by_cases hq : (ahead q).kind = .punct .comma
      · exact ⟨_, if_pos hq, Nat.lt_of_le_of_lt (unread_next_le q) (hfewer q rfl)⟩
      · exact ⟨_, if_neg hq, trivial⟩

/-- The loop over lengths ends. -/
theorem lengths_ends : Ends unread lengthsTurn lengths where
  turns := lengths_loop
  shrinks p := by
    by_cases hp : (ahead p).kind = .punct .lbracket
    · obtain ⟨place, he, hfewer⟩ := (expr_agrees .bracket false (stands (next p))).ends
      rw [lengthsTurn, if_pos hp, he]
      cases place with
      | none => exact ⟨_, rfl, trivial⟩
      | some q =>
        refine ⟨_, rfl, ?_⟩
        calc unread (next q) ≤ unread q := unread_next_le q
          _ < unread (next p) := hfewer q rfl
          _ ≤ unread p := unread_next_le p
    · rw [lengthsTurn, if_neg hp]
      exact ⟨_, rfl, trivial⟩

/-- The loop over statements ends. -/
theorem block_ends : Ends unread blockTurn blockRest where
  turns := blockRest_loop
  shrinks p := by
    by_cases hbrace : (ahead p).kind = .punct .rbrace
    · rw [blockTurn, if_pos hbrace]
      exact ⟨_, rfl, trivial⟩
    · by_cases hend : (ahead p).kind = .endOfFile
      · rw [blockTurn, if_neg hbrace, if_pos hend]
        exact ⟨_, rfl, trivial⟩
      · obtain ⟨place, hs, hfewer⟩ := (reads (stands p)).stmt.ends
        rw [blockTurn, if_neg hbrace, if_neg hend, hs]
        cases place with
        | none => exact ⟨_, rfl, trivial⟩
        | some q => exact ⟨_, rfl, hfewer q rfl⟩

/-- The loop over parameters ends. -/
theorem params_ends : Ends unread paramsTurn params where
  turns := params_loop
  shrinks p := by
    obtain ⟨e, hty, htaken⟩ := type_answers (stands p)
    cases e with
    | error f =>
      rw [paramsTurn, hty]
      exact ⟨_, rfl, trivial⟩
    | ok r =>
      obtain ⟨ty, q⟩ := r
      rw [paramsTurn_of_type hty]
      cases hname : name q with
      | error f => exact ⟨_, rfl, trivial⟩
      | ok r =>
        obtain ⟨⟨x, line⟩, afterName⟩ := r
        dsimp only
        cases hend : paramEnd afterName with
        | error f => exact ⟨_, rfl, trivial⟩
        | ok r =>
          obtain ⟨e, s⟩ := r
          cases e with
          | comma =>
            refine ⟨_, rfl, ?_⟩
            calc unread s < unread afterName :=
                  (paramEnd_matches (stands afterName)).fewer hend
              _ < unread q := (name_matches (stands q)).fewer hname
              _ < unread p := htaken.fewer rfl
          | paren => exact ⟨_, rfl, trivial⟩

/-- The loop over items ends. -/
theorem items_ends : Ends unread itemsTurn items where
  turns := items_loop
  shrinks p := by
    by_cases hend : (ahead p).kind = .endOfFile
    · rw [itemsTurn, if_pos hend]
      exact ⟨_, rfl, trivial⟩
    · have hstands : Stands p _ _ := Scan.tokensFrom_of_ne hend
      obtain ⟨place, hi, hfewer⟩ := (item_agrees hstands).ends
      rw [itemsTurn, if_neg hend, hi]
      cases place with
      | none => exact ⟨_, rfl, trivial⟩
      | some q => exact ⟨_, rfl, hfewer q rfl⟩

end MiniC.Scan.Place

/-! ## §3. Collapsing -/

namespace MiniC.Precedence

open Demand (Turn Loop Ends)

variable {α : Type}

/-- One pass over a run.  A pass after which there are as many nodes as before
is the last. -/
def collapseTurn : List (Tree α) → Turn (List (Tree α)) (Except Fault (Tree α))
  | [] => .ends (.ok .hole)
  | [root] => .ends (.ok root)
  | first :: second :: rest =>
    match pass [] first (second :: rest) with
    | .error f => .ends (.error f)
    | .ok run =>
      if run.length = (first :: second :: rest).length then
        .ends (.error ⟨.badExpression, first.line⟩)
      else .goesOn id run

/-- Collapsing goes on as long as a pass has changed the number of nodes. -/
theorem collapse_loop :
    Loop (fun run : List (Tree α) => some (collapseTurn run)) fun run => some (collapse run) := by
  intro run
  match run with
  | [] | [root] =>
    dsimp only
    rw [collapse]
    rfl
  | first :: second :: rest =>
    dsimp only
    rw [collapse, collapseTurn]
    cases hpass : pass [] first (second :: rest) with
    | error f => rfl
    | ok run =>
      have hle : run.length ≤ (first :: second :: rest).length :=
        (pass_moves hpass).length_le
      dsimp only
      by_cases hlt : run.length < (first :: second :: rest).length
      · rw [if_pos hlt, if_neg (Nat.ne_of_lt hlt)]
        rfl
      · rw [if_neg hlt, if_pos (Nat.le_antisymm hle (Nat.le_of_not_lt hlt))]
        rfl

/-- **A pass takes a node out of the run, or is the last.**  No pass adds one. -/
theorem collapse_ends :
    Ends List.length (fun run : List (Tree α) => some (collapseTurn run))
      fun run => some (collapse run) where
  turns := collapse_loop
  shrinks run := by
    refine ⟨_, rfl, ?_⟩
    match run with
    | [] => trivial
    | [root] => trivial
    | first :: second :: rest =>
      rw [collapseTurn]
      cases hpass : pass [] first (second :: rest) with
      | error f => trivial
      | ok run =>
        dsimp only
        split
        · trivial
        · rename_i hne
          -- a pass is a series of moves, and each move takes one node out
          exact Nat.lt_of_le_of_ne (pass_moves hpass).length_le hne

end MiniC.Precedence

/-! ## §4. Texts -/

namespace MiniC.Demand

open Outline (Stop)
open Scan (Place)

/-- The loops of the parser. -/
structure LoopsEnd : Prop where
  stars : Ends (fun s => s.2.unread) (fun s => some (Place.starsTurn s.1 s.2))
    fun s => Place.stars s.1 s.2
  expr (stop : Stop) : Ends (fun s => s.2.unread) (fun s => Place.exprTurn stop s.1 s.2)
    fun s => Place.expr stop s.1 s.2
  arguments : Ends Place.unread Place.argumentsTurn Place.moreArguments
  lengths : Ends Place.unread Place.lengthsTurn Place.lengths
  block : Ends Place.unread Place.blockTurn Place.blockRest
  params : Ends Place.unread Place.paramsTurn Place.params
  items : Ends Place.unread Place.itemsTurn Place.items
  collapse (α : Type) : Ends List.length
    (fun run : List (Tree α) => some (Precedence.collapseTurn run))
    fun run => some (Precedence.collapse run)

/-- **Parsing ends on every text.**  From every place each phrase is read to its
end, with fewer characters left; every loop takes smaller and smaller states; and
reading a text on demand gives the items that `parse` checks. -/
theorem parsing_ends :
    (∀ p, Place.Reads p (Scan.tokensFrom p).endLine (Scan.tokensFrom p).list) ∧ LoopsEnd ∧
      ∀ text, (Place.items (.start text)).map Check.program = some (parse text) := by
  refine ⟨fun p => Place.reads (Place.stands p), ?_, fun text => ?_⟩
  · exact {
      stars := Place.stars_ends
      expr := Place.expr_ends
      arguments := Place.arguments_ends
      lengths := Place.lengths_ends
      block := Place.block_ends
      params := Place.params_ends
      items := Place.items_ends
      collapse := fun α => Precedence.collapse_ends }
  · rw [Place.items_eq (Place.stands (.start text))]
    rfl

end MiniC.Demand
