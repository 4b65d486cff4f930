/-
  MiniC.Proofs.Strict.Runs

  Collapsing a run whose nodes are numbers.

  A pass walks along a run of nodes by index.  It looks at the node before and
  the node after a place, and hands a finished node to one of them.  Every
  index into the run and every look-up in the table may break off.

  A pass over nodes ends as the pass over their trees does (`pass_ends`): on
  the way the table always holds the run.  So collapsing, and typing what is
  left, give what they give for trees, and never break off (`resolve_eq`).
-/
import MiniC.Proofs.Precedence.Collapsing
import MiniC.Proofs.Strict.Arena

namespace MiniC.Strict

variable {α : Type}
variable {es : List (Entry α)} {A : Arena Expr} {side : Option NodeId} {line line' : Nat}

/-! ## §1. Collapsing by number -/

/-- The node at a place of a run, which must be there. -/
def nodeAt (run : List NodeId) (i : Nat) : Except Breach NodeId :=
  match run[i]? with
  | some id => .ok id
  | none => .error (.noPlace i)

/-- The node before a place of a run, which must be there. -/
def nodeBefore (run : List NodeId) : Nat → Except Breach NodeId
  | 0 => .error .beforeFirst
  | i + 1 => nodeAt run i

/-- What the node before a place asks for, if the place is not the first. -/
def askedFromLeft (A : Arena α) (run : List NodeId) : Nat → Except Breach (Option Nat)
  | 0 => .ok none
  | i + 1 => do A.openRight? (← nodeAt run i)

/-- What the node after a place asks for, if there is one. -/
def askedFromRight (A : Arena α) (run : List NodeId) (i : Nat) : Except Breach (Option Nat) :=
  match run[i + 1]? with
  | some next => A.openLeft? next
  | none => .ok none

/-- One pass over a run from a place on. -/
def pass (A : Arena α) (run : List NodeId) (i : Nat) : Checked (Arena α × List NodeId) :=
  if h : i < run.length ∧ 1 < run.length then do
    let id ← nodeAt run i
    if ← A.isFinished id then
      match Precedence.tighter (← askedFromLeft A run i) (← askedFromRight A run i) with
      | some .left =>
        pass (← A.fillRight (← nodeBefore run i) id) (run.eraseIdx i) i
      | some .right =>
        pass (← A.fillLeft (← nodeAt run (i + 1)) id) (run.eraseIdx i) i
      | none => throw ⟨.badCombination, ← A.line id⟩
    else pass A run (i + 1)
  else return (A, run)
termination_by run.length - i
decreasing_by
  · rw [List.length_eraseIdx_of_lt h.1]
    omega
  · rw [List.length_eraseIdx_of_lt h.1]
    omega
  · omega

/-- Collapses a run into one node. -/
def collapse (A : Arena α) (run : List NodeId) : Checked (Arena α × NodeId) :=
  match run with
  | [] => throw ⟨.badExpression, 0⟩
  | [root] => return (A, root)
  | first :: second :: rest => do
    let (A, run) ← pass A (first :: second :: rest) 0
    if run.length < (first :: second :: rest).length then collapse A run
    else throw ⟨.badExpression, ← A.line (← nodeAt run 0)⟩
termination_by run.length
decreasing_by assumption

/-- A table with no more cells than `n`. -/
abbrev Remaining (n : Nat) := { A : Arena Expr // A.filled ≤ n }

/-- Types a collapsed node, operands first and from left to right, and takes
its cells out; `line` is where an open side is reported. -/
def finish (A : Arena Expr) (id : Option NodeId) (line : Nat) :
    Except Fault (Expr × Remaining A.filled) :=
  match h : A.take id with
  | none => .error ⟨.badExpression, line⟩
  | some (.operand e _, B) => .ok (e, ⟨B, Nat.le_of_lt (Arena.filled_take h)⟩)
  | some (.unary op target line arg, B) => do
    have hB := Arena.filled_take h
    let (e, C) ← finish B arg line
    let e ← typed line (Typing.unary op target e line)
    return (e, ⟨C.1, by have := C.2; omega⟩)
  | some (.binary op line left right, B) => do
    have hB := Arena.filled_take h
    let (l, C) ← finish B left line
    have hC := C.2
    let (r, D) ← finish C.1 right line
    let e ← typed line (Typing.binary op l r line)
    return (e, ⟨D.1, by have := D.2; omega⟩)
termination_by A.filled

/-- An operand may come next: the run is empty or its last node has an open
side. -/
def expectsOperand (A : Arena α) (run : List NodeId) : Except Breach Bool :=
  match run.getLast? with
  | some id => do return !(← A.isFinished id)
  | none => .ok true

/-- Enters the elements of a run, each after a look at the one before. -/
def build (A : Arena α) (run : List NodeId) : List (Part α) → Except Breach (Arena α × List NodeId)
  | [] => .ok (A, run)
  | p :: ps => do
    let _ ← expectsOperand A run
    let (key, A) := A.insert (some (Cell.ofPart p))
    build A (run ++ [⟨key⟩]) ps

/-- The typed expression that a run stands for. -/
def resolve (parts : List (Part Expr)) : Checked Expr := do
  let (A, run) ← build {} [] parts
  let (A, root) ← collapse A run
  let (e, _) ← sure (finish A (some root) (← A.line root))
  return e

/-! ## §2. A pass -/

section Pass

variable {A : Arena α} {before after : List (Entry α)} {here : Entry α}

theorem nodeAt_append (before : List (Entry α)) (here : Entry α) (after : List (Entry α)) :
    nodeAt (ids (before ++ here :: after)) before.length = .ok here.id := by
  simp [nodeAt, ids]

/-- What the node before a place asks for. -/
theorem askedFromLeft_eq (h : Holds A (before ++ here :: after)) :
    askedFromLeft A (ids (before ++ here :: after)) before.length =
      .ok (before.getLast?.bind (·.tree.openRight?)) := by
  induction before using List.reverseRecOn with
  | nil => rfl
  | append_singleton before left _ =>
    have hat := nodeAt_append before left (here :: after)
    rw [List.append_assoc] at h ⊢
    rw [List.length_append, List.length_singleton, List.getLast?_append]
    show (nodeAt (ids (before ++ left :: here :: after)) before.length >>= _) = _
    rw [hat]
    exact (h.stands left (by simp)).openRight?

/-- What the node after a place asks for. -/
theorem askedFromRight_eq (h : Holds A (before ++ here :: after)) :
    askedFromRight A (ids (before ++ here :: after)) before.length =
      .ok (after.head?.bind (·.tree.openLeft?)) := by
  have hget : (ids (before ++ here :: after))[before.length + 1]? = after.head?.map (·.id) := by
    cases after <;> simp [ids]
  rw [askedFromRight, hget]
  cases after with
  | nil => rfl
  | cons next after => exact (h.stands next (by simp)).openLeft?

/-- A pass ends at the end of the run, and if the run is one node. -/
theorem pass_of_end {run : List NodeId} {i : Nat} (h : ¬ (i < run.length ∧ 1 < run.length)) :
    pass A run i = sure (.ok (A, run)) := by
  unfold pass
  rw [dif_neg h]
  rfl

/-- What a pass does at a node. -/
theorem pass_at (h : Holds A (before ++ here :: after)) (hmore : before ++ after ≠ []) :
    pass A (ids (before ++ here :: after)) before.length =
      if here.tree.isFinished then
        match Precedence.tighter (before.getLast?.bind (·.tree.openRight?))
          (after.head?.bind (·.tree.openLeft?)) with
        | some .left => do
          pass (← A.fillRight (← nodeBefore (ids (before ++ here :: after)) before.length) here.id)
            (ids (before ++ after)) before.length
        | some .right => do
          pass (← A.fillLeft (← nodeAt (ids (before ++ here :: after)) (before.length + 1)) here.id)
            (ids (before ++ after)) before.length
        | none => sure (.error ⟨.badCombination, here.tree.line⟩)
      else pass A (ids (before ++ here :: after)) (before.length + 1) := by
  have hlen : before.length < (ids (before ++ here :: after)).length ∧
      1 < (ids (before ++ here :: after)).length := by
    have := List.length_pos_of_ne_nil hmore
    simp [ids] at this ⊢
    omega
  have herase : (ids (before ++ here :: after)).eraseIdx before.length = ids (before ++ after) := by
    simp [ids, List.eraseIdx_append_of_length_le]
  have hhere := h.stands here (by simp)
  rw [pass, dif_pos hlen, nodeAt_append, liftM_ok, sure_bind_ok, hhere.isFinished, liftM_ok,
    sure_bind_ok, askedFromLeft_eq h, askedFromRight_eq h, herase, hhere.line]
  rfl

/-- A node with an open side is passed over. -/
theorem pass_skip (h : Holds A (before ++ here :: after)) (hmore : before ++ after ≠ [])
    (hopen : ¬ here.tree.isFinished = true) :
    pass A (ids (before ++ here :: after)) before.length =
      pass A (ids (before ++ here :: after)) (before.length + 1) := by
  rw [pass_at h hmore, if_neg hopen]

/-- A finished node that nobody asks for is a fault. -/
theorem pass_stuck (h : Holds A (before ++ here :: after)) (hmore : before ++ after ≠ [])
    (hfin : here.tree.isFinished = true)
    (hside : Precedence.tighter (before.getLast?.bind (·.tree.openRight?))
      (after.head?.bind (·.tree.openLeft?)) = none) :
    pass A (ids (before ++ here :: after)) before.length =
      sure (.error ⟨.badCombination, here.tree.line⟩) := by
  rw [pass_at h hmore, if_pos hfin, hside]

/-- A node goes to the neighbour before it, if that one binds tighter. -/
theorem pass_left {left : Entry α} (h : Holds A (before ++ left :: here :: after))
    (hfin : here.tree.isFinished = true)
    (hside : Precedence.tighter left.tree.openRight? (after.head?.bind (·.tree.openLeft?)) =
      some .left) :
    ∃ B, Holds B (before ++ left.takeRight here :: after) ∧
      pass A (ids (before ++ left :: here :: after)) (before.length + 1) =
        pass B (ids (before ++ left.takeRight here :: after)) (before.length + 1) := by
  obtain ⟨p, hp, _⟩ := Precedence.tighter_left hside
  obtain ⟨B, hB, hholds⟩ := h.toLeft hp
  refine ⟨B, hholds, ?_⟩
  have hsplit : before ++ left :: here :: after = (before ++ [left]) ++ here :: after := by simp
  have hlen : before.length + 1 = (before ++ [left]).length := by simp
  have hbefore : nodeBefore (ids (before ++ left :: here :: after)) (before.length + 1) =
      .ok left.id := nodeAt_append before left (here :: after)
  have hids : ids (before ++ left.takeRight here :: after) = ids (before ++ [left] ++ after) := by
    simp [ids, Entry.takeRight]
  -- `here` leaves the run, so its place is now that of the node after it
  have hpass := pass_at (hsplit ▸ h) (by simp)
  rw [← hsplit, ← hlen, if_pos hfin, List.getLast?_concat] at hpass
  simp only [Option.bind_some, hside, hbefore, hB, liftM_ok, sure_bind_ok] at hpass
  rw [hpass, hids]

/-- A node goes to the neighbour after it, if that one binds tighter. -/
theorem pass_right {next : Entry α} (h : Holds A (before ++ here :: next :: after))
    (hfin : here.tree.isFinished = true)
    (hside : Precedence.tighter (before.getLast?.bind (·.tree.openRight?)) next.tree.openLeft? =
      some .right) :
    ∃ B, Holds B (before ++ next.takeLeft here :: after) ∧
      pass A (ids (before ++ here :: next :: after)) before.length =
        pass B (ids (before ++ next.takeLeft here :: after)) before.length := by
  obtain ⟨p, hp, _⟩ := Precedence.tighter_right hside
  obtain ⟨B, hB, hholds⟩ := h.toRight hp
  refine ⟨B, hholds, ?_⟩
  have hafter : nodeAt (ids (before ++ here :: next :: after)) (before.length + 1) =
      .ok next.id := by
    simp [nodeAt, ids]
  have hids : ids (before ++ next.takeLeft here :: after) = ids (before ++ next :: after) := by
    simp [ids, Entry.takeLeft]
  have hpass := pass_at h (by simp)
  rw [if_pos hfin] at hpass
  simp only [List.head?_cons, Option.bind_some, hside, hafter, hB, liftM_ok, sure_bind_ok] at hpass
  rw [hpass, hids]

/-- A pass by number ends as a pass over trees does. -/
def Ends (x : Checked (Arena α × List NodeId)) : Except Fault (List (Tree α)) → Prop
  | .error f => x = sure (.error f)
  | .ok run => ∃ A es, x = sure (.ok (A, ids es)) ∧ trees es = run ∧ Holds A es

/-- From a node with these nodes after it, a pass by number ends as the pass
over trees does, whatever came before. -/
def PassesAsTrees (after : List (Entry α)) : Prop :=
  ∀ {A : Arena α} {before : List (Entry α)} {here : Entry α},
    Holds A (before.reverse ++ here :: after) →
      Ends (pass A (ids (before.reverse ++ here :: after)) before.length)
        (Precedence.pass (trees before) here.tree (trees after))

/-- The last node of a run, with nodes before it. -/
theorem pass_ends_last {left : Entry α} (h : Holds A (before.reverse ++ [left, here])) :
    Ends (pass A (ids (before.reverse ++ [left, here])) (before.length + 1))
      (Precedence.pass (trees (left :: before)) here.tree []) := by
  have hlen : before.length + 1 = (before.reverse ++ [left]).length := by simp
  have hsplit : before.reverse ++ [left, here] = (before.reverse ++ [left]) ++ [here] := by simp
  by_cases hfin : here.tree.isFinished = true
  · cases hasks : left.tree.openRight? with
    | none =>
      have hmodel : Precedence.pass (trees (left :: before)) here.tree [] =
          .error ⟨.badCombination, here.tree.line⟩ := by
        simp [Precedence.pass, trees, hfin, hasks]
      rw [hmodel, hsplit, hlen]
      exact pass_stuck (hsplit ▸ h) (by simp) hfin (by simp [hasks, Precedence.tighter])
    | some p =>
      have hmodel : Precedence.pass (trees (left :: before)) here.tree [] =
          .ok (trees (before.reverse ++ [left.takeRight here])) := by
        simp [Precedence.pass, trees, hfin, hasks, Entry.takeRight]
      obtain ⟨B, hB, hpass⟩ := pass_left h hfin (by rw [hasks]; rfl)
      rw [List.length_reverse] at hpass
      rw [hmodel, hpass, pass_of_end (by simp [ids])]
      exact ⟨B, _, rfl, rfl, hB⟩
  · have hmodel : Precedence.pass (trees (left :: before)) here.tree [] =
        .ok (trees (before.reverse ++ [left, here])) := by
      simp [Precedence.pass, trees, hfin]
    have hskip := pass_skip (hsplit ▸ h) (by simp) hfin
    rw [← hsplit, ← hlen] at hskip
    rw [hmodel, hskip, pass_of_end (by simp [ids])]
    exact ⟨A, _, rfl, rfl, h⟩

/-- Nothing is left of an empty run. -/
theorem passesAsTrees_nil : PassesAsTrees ([] : List (Entry α)) := by
  intro A before here h
  cases before with
  | nil =>
    have hmodel : Precedence.pass [] here.tree [] = .ok [here.tree] := by
      simp [Precedence.pass]
    show Ends _ (Precedence.pass [] here.tree [])
    rw [hmodel, pass_of_end (by simp [ids])]
    exact ⟨A, _, rfl, rfl, h⟩
  | cons left before =>
    simp only [List.reverse_cons, List.append_assoc, List.singleton_append] at h ⊢
    exact pass_ends_last h

namespace PassesAsTrees

/-- The first node, if it is finished: the node after it takes it, or nobody
does. -/
theorem first {next : Entry α} (ih : PassesAsTrees after) (h : Holds A (here :: next :: after))
    (hfin : here.tree.isFinished = true) :
    Ends (pass A (ids (here :: next :: after)) 0)
      (Precedence.pass [] here.tree (trees (next :: after))) := by
  cases hasks : next.tree.openLeft? with
  | none =>
    have hmodel : Precedence.pass [] here.tree (trees (next :: after)) =
        .error ⟨.badCombination, here.tree.line⟩ := by
      simp [Precedence.pass, trees, hfin, hasks]
    rw [hmodel]
    exact @pass_stuck _ _ [] _ _ h (by simp) hfin (by simp [hasks, Precedence.tighter])
  | some q =>
    have hmodel : Precedence.pass [] here.tree (trees (next :: after)) =
        Precedence.pass [] (next.takeLeft here).tree (trees after) := by
      simp [Precedence.pass, trees, hfin, hasks, Entry.takeLeft]
    obtain ⟨B, hB, hpass⟩ := @pass_right _ _ [] _ _ _ h hfin (by rw [hasks]; rfl)
    rw [hmodel]
    exact hpass ▸ @ih B [] _ hB

/-- A finished node between two others goes to the one that binds tighter. -/
theorem between {left next : Entry α} (ih : PassesAsTrees after)
    (h : Holds A ((left :: before).reverse ++ here :: next :: after))
    (hfin : here.tree.isFinished = true) :
    Ends (pass A (ids ((left :: before).reverse ++ here :: next :: after)) (left :: before).length)
      (Precedence.pass (trees (left :: before)) here.tree (trees (next :: after))) := by
  cases hside : Precedence.tighter left.tree.openRight? next.tree.openLeft? with
  | none =>
    have hmodel : Precedence.pass (trees (left :: before)) here.tree (trees (next :: after)) =
        .error ⟨.badCombination, here.tree.line⟩ := by
      simp [Precedence.pass, trees, hfin, hside]
    have hstuck := pass_stuck h (by simp) hfin (by simp [hside])
    rw [List.length_reverse] at hstuck
    rw [hmodel]
    exact hstuck
  | some side =>
    cases side with
    | left =>
      have hmodel : Precedence.pass (trees (left :: before)) here.tree (trees (next :: after)) =
          Precedence.pass (trees (left.takeRight here :: before)) next.tree (trees after) := by
        simp [Precedence.pass, trees, hfin, hside, Entry.takeRight]
      simp only [List.reverse_cons, List.append_assoc, List.singleton_append] at h ⊢
      obtain ⟨B, hB, hpass⟩ := pass_left h hfin hside
      rw [List.length_reverse] at hpass
      -- the pass goes on at the next node, with the larger tree behind it
      have hgo : Ends (pass B (ids ((left.takeRight here :: before).reverse ++ next :: after))
          (before.length + 1)) _ := ih (by simpa using hB)
      rw [hmodel, List.length_cons, hpass]
      simpa using hgo
    | right =>
      have hmodel : Precedence.pass (trees (left :: before)) here.tree (trees (next :: after)) =
          Precedence.pass (trees (left :: before)) (next.takeLeft here).tree (trees after) := by
        simp [Precedence.pass, trees, hfin, hside, Entry.takeLeft]
      obtain ⟨B, hB, hpass⟩ := pass_right h hfin (by simpa using hside)
      rw [List.length_reverse] at hpass
      rw [hmodel, hpass]
      exact ih hB

/-- One more entry passes as its tree. -/
theorem cons (next : Entry α) (ih : PassesAsTrees after) : PassesAsTrees (next :: after) := by
  intro A before here h
  by_cases hfin : here.tree.isFinished = true
  · cases before with
    | nil => exact ih.first h hfin
    | cons left before => exact ih.between h hfin
  · have hmodel : Precedence.pass (trees before) here.tree (trees (next :: after)) =
        Precedence.pass (trees (here :: before)) next.tree (trees after) := by
      simp [Precedence.pass, trees, hfin]
    have hskip := pass_skip h (by simp) hfin
    rw [List.length_reverse] at hskip
    have hgo : Ends (pass A (ids ((here :: before).reverse ++ next :: after))
        (before.length + 1)) _ := ih (by simpa using h)
    rw [hmodel, hskip]
    simpa using hgo

end PassesAsTrees

/-- **A pass over nodes is a pass over their trees.** -/
theorem pass_ends (after : List (Entry α)) : PassesAsTrees after := by
  induction after with
  | nil => exact passesAsTrees_nil
  | cons next after ih => exact ih.cons next

end Pass

/-! ## §3. The whole run -/

/-- A run that did not get shorter is the same. -/
theorem eq_of_moves {run run' : List (Tree α)} (h : Precedence.Moves run run')
    (hlen : ¬ run'.length < run.length) : run' = run := by
  cases h with
  | refl => rfl
  | tail hmoves hmove =>
    have := Precedence.Moves.length_le hmoves
    have := Precedence.Move.length_eq hmove
    omega

/-- Collapsing by number ends as collapsing trees does. -/
def Collapses (x : Checked (Arena α × NodeId)) : Except Fault (Tree α) → Prop
  | .error f => x = sure (.error f)
  | .ok t => ∃ A id places, x = sure (.ok (A, id)) ∧ Stands A (some id) t places ∧ places.Nodup

/-- A run of two nodes or more begins with a pass. -/
theorem collapse_two {A : Arena α} {first second : Tree α} {rest : List (Tree α)}
    (hrun : trees es = first :: second :: rest) (h : Holds A es) :
    Ends (pass A (ids es) 0) (Precedence.pass [] first (second :: rest)) ∧
      collapse A (ids es) = (do
        let (B, run) ← pass A (ids es) 0
        if run.length < (first :: second :: rest).length then collapse B run
        else throw ⟨.badExpression, ← B.line (← nodeAt run 0)⟩) := by
  obtain ⟨e, es, rfl, rfl, hrest⟩ := List.map_eq_cons_iff.1 hrun
  obtain ⟨e', es, rfl, rfl, rfl⟩ := List.map_eq_cons_iff.1 hrest
  refine ⟨@pass_ends α (e' :: es) A [] e h, ?_⟩
  show collapse A (e.id :: e'.id :: ids es) = _
  rw [collapse]
  simp [ids]

/-- **Collapsing nodes is collapsing their trees.** -/
theorem collapse_ends {A : Arena α} {run : List (Tree α)} (hrun : trees es = run) (hne : es ≠ [])
    (h : Holds A es) : Collapses (collapse A (ids es)) (Precedence.collapse run) := by
  fun_induction Precedence.collapse run generalizing A es with
  | case1 => exact absurd (List.map_eq_nil_iff.1 hrun) hne
  | case2 root =>
    obtain ⟨e, rfl, rfl⟩ := List.map_eq_singleton_iff.1 hrun
    have hcollapse : collapse A (ids [e]) = sure (.ok (A, e.id)) := by simp [ids, collapse]
    exact ⟨A, e.id, e.places, hcollapse, h.stands e (by simp), by simpa using h.nodup⟩
  | case3 first second rest f hpass =>
    obtain ⟨hends, hcollapse⟩ := collapse_two hrun h
    rw [hpass] at hends
    rw [hcollapse, hends]
    rfl
  | case4 first second rest run hpass hlt ih =>
    obtain ⟨hends, hcollapse⟩ := collapse_two hrun h
    rw [hpass] at hends
    obtain ⟨B, es', hgo, rfl, hholds⟩ := hends
    have hlen : (ids es').length = (trees es').length := by simp [ids, trees]
    have hne' : es' ≠ [] := by
      have hmoves := Precedence.pass_moves hpass
      exact fun hnil => hmoves.ne_nil (by simp) (by rw [hnil]; rfl)
    rw [hcollapse, hgo, sure_bind_ok]
    dsimp only
    rw [if_pos (hlen ▸ hlt)]
    exact ih rfl hne' hholds
  | case5 first second rest run hpass hlt =>
    obtain ⟨hends, hcollapse⟩ := collapse_two hrun h
    rw [hpass] at hends
    obtain ⟨B, es', hgo, rfl, hholds⟩ := hends
    -- the pass changed nothing, so the first node is the one it was
    have hsame := eq_of_moves (Precedence.pass_moves hpass) hlt
    obtain ⟨e, es'', rfl, rfl, _⟩ := List.map_eq_cons_iff.1 hsame
    have hlen : (ids (e :: es'')).length = (trees (e :: es'')).length := by simp [ids, trees]
    have hfirst : nodeAt (ids (e :: es'')) 0 = .ok e.id := nodeAt_append [] e es''
    rw [hcollapse, hgo, sure_bind_ok]
    dsimp only
    rw [if_neg (hlen ▸ hlt), hfirst, liftM_ok, sure_bind_ok, (hholds.stands e (by simp)).line]
    rfl

/-! ## §4. Typing the tree -/

/-- The expression of a node, and the table that is left. -/
def finished (A : Arena Expr) (side : Option NodeId) (line : Nat) :
    Except Fault (Expr × Arena Expr) :=
  (finish A side line).map fun r => (r.1, r.2.1)

/-- A unary cell is finished after its operand. -/
theorem finished_unary {B : Arena Expr} {arg : Option NodeId} {op : UnaryOp} {target : Option Ty}
    (h : A.take side = some (.unary op target line' arg, B)) :
    finished A side line = (do
      let (e, C) ← finished B arg line'
      return (← typed line' (Typing.unary op target e line'), C)) := by
  unfold finished
  rw [finish]
  split
  · simp_all
  · simp_all
  · rename_i h'
    rw [h] at h'
    cases h'
    cases finish B arg line' with
    | error f => rfl
    | ok r =>
      obtain ⟨e, C⟩ := r
      show Except.map _ (typed line' (Typing.unary op target e line') >>= _) =
        (typed line' (Typing.unary op target e line') >>= _)
      cases typed line' (Typing.unary op target e line') <;> rfl
  · simp_all

/-- A binary cell is finished after both operands. -/
theorem finished_binary {B : Arena Expr} {left right : Option NodeId} {op : BinaryOp}
    (h : A.take side = some (.binary op line' left right, B)) :
    finished A side line = (do
      let (l, C) ← finished B left line'
      let (r, D) ← finished C right line'
      return (← typed line' (Typing.binary op l r line'), D)) := by
  unfold finished
  rw [finish]
  split
  · simp_all
  · simp_all
  · simp_all
  · rename_i h'
    rw [h] at h'
    cases h'
    cases finish B left line' with
    | error f => rfl
    | ok x =>
      obtain ⟨l, C⟩ := x
      show Except.map _ (finish C.1 right line' >>= _) =
        (Except.map _ (finish C.1 right line') >>= _)
      cases finish C.1 right line' with
      | error f => rfl
      | ok y =>
        obtain ⟨r, D⟩ := y
        show Except.map _ (typed line' (Typing.binary op l r line') >>= _) =
          (typed line' (Typing.binary op l r line') >>= _)
        cases typed line' (Typing.binary op l r line') <;> rfl

/-- Typing a node ends as typing a tree does. -/
def Finishes (places : List NodeId) (A : Arena Expr) (x : Except Fault (Expr × Arena Expr)) :
    Except Fault Expr → Prop
  | .error f => x = .error f
  | .ok e => ∃ B, x = .ok (e, B) ∧ OnlyIn places A B

section Finishes

variable {A B : Arena Expr} {places others : List NodeId}

/-- A part is typed, then the rest in the table that it leaves. -/
theorem Finishes.bind {x : Except Fault (Expr × Arena Expr)} {r : Except Fault Expr}
    {f : Expr × Arena Expr → Except Fault (Expr × Arena Expr)} {g : Expr → Except Fault Expr}
    (h : Finishes places A x r)
    (hnext : ∀ e C, OnlyIn places A C → Finishes others B (f (e, C)) (g e)) :
    Finishes others B (x >>= f) (r >>= g) := by
  cases r with
  | error fault =>
    rw [show x = .error fault from h]
    rfl
  | ok e =>
    obtain ⟨C, hx, hin⟩ := h
    rw [hx]
    exact hnext e C hin

/-- The node itself is typed, after its parts. -/
theorem Finishes.typed {C : Arena Expr} (h : OnlyIn places A C) (line : Nat)
    (y : Except TypeError Expr) :
    Finishes places A (do return (← MiniC.typed line y, C)) (MiniC.typed line y) := by
  cases y with
  | error e => rfl
  | ok e => exact ⟨C, rfl, h⟩

end Finishes

/-- The cell of an operand is finished. -/
theorem finished_operand {B : Arena Expr} {e : Expr}
    (h : A.take side = some (.operand e line', B)) : finished A side line = .ok (e, B) := by
  unfold finished
  rw [finish]
  split <;> simp_all [Except.map]

/-- **Typing a node is typing its tree**, and changes its own places only. -/
theorem finished_finishes {t : Tree Expr} {places : List NodeId} (h : Stands A side t places)
    (hnodup : places.Nodup) (line : Nat) :
    Finishes places A (finished A side line) (Precedence.finish line t) := by
  induction t generalizing A side places line with
  | hole =>
    cases h
    unfold finished
    rw [finish]
    rfl
  | operand e line' =>
    cases h with
    | @operand id _ _ h =>
      refine ⟨_, finished_operand (take_eq h), fun other hother => ?_⟩
      exact onlyAt_modify A id _ other fun heq => hother (by simp [heq])
  | unary op target line' t ih =>
    cases h with
    | @unary id _ _ _ arg _ places h harg =>
      have honly := onlyAt_modify A id fun _ => none
      obtain ⟨hid, hnodup⟩ := List.nodup_cons.1 hnodup
      rw [finished_unary (take_eq h), Precedence.finish]
      refine (ih (harg.elsewhere honly hid) hnodup line').bind fun e C hin => ?_
      refine Finishes.typed (fun other hother => ?_) line' _
      rw [List.mem_cons, not_or] at hother
      exact (hin other hother.2).trans (honly other hother.1)
  | binary op line' l r ihl ihr =>
    cases h with
    | @binary id _ _ left right _ _ before after h hleft hright =>
      -- the left operand is typed first, and the places of the right one stay as they are
      have honly := onlyAt_modify A id fun _ => none
      have hid : id ∉ before ∧ id ∉ after := by grind
      obtain ⟨hbefore, hafter, hdisjoint⟩ := List.nodup_append'.1 hnodup
      rw [finished_binary (take_eq h), Precedence.finish]
      refine (ihl (hleft.elsewhere honly hid.1) hbefore line').bind fun e C hC => ?_
      have hright' : Stands C right r after :=
        (hright.elsewhere honly hid.2).congr fun other hother => hC other fun hmem =>
          hdisjoint hmem (List.mem_cons_of_mem _ hother)
      refine (ihr hright' (List.nodup_cons.1 hafter).2 line').bind fun e' D hD => ?_
      refine Finishes.typed (fun other hother => ?_) line' _
      simp only [List.mem_append, List.mem_cons, not_or] at hother
      obtain ⟨hother, hne, hother'⟩ := hother
      exact (hD other hother').trans ((hC other hother).trans (honly other hne))

/-! ## §5. Entering a run -/

/-- The last entry is there to look at. -/
theorem expectsOperand_eq {A : Arena α} (h : Holds A es) :
    ∃ b, expectsOperand A (ids es) = .ok b := by
  unfold expectsOperand
  rw [ids, List.getLast?_map]
  cases hlast : es.getLast? with
  | none => exact ⟨true, rfl⟩
  | some e =>
    have hfin := (h.stands e (List.mem_of_getLast? hlast)).isFinished
    exact ⟨!e.tree.isFinished, by simp [hfin]⟩

/-- **A run that is entered is held.** -/
theorem build_eq {A : Arena α} (h : Holds A es) (ps : List (Part α)) :
    ∃ B es', build A (ids es) ps = .ok (B, ids es') ∧
      trees es' = trees es ++ ps.map Part.toTree ∧ Holds B es' := by
  induction ps generalizing A es with
  | nil => exact ⟨A, es, rfl, by simp, h⟩
  | cons p ps ih =>
    obtain ⟨b, hb⟩ := expectsOperand_eq h
    obtain ⟨B, es', hbuild, htrees, hholds⟩ := ih (h.insert p)
    refine ⟨B, es', ?_, by simpa [trees] using htrees, hholds⟩
    rw [ids, List.map_append] at hbuild
    rw [build, hb]
    exact hbuild

/-- What is left of the table is dropped. -/
theorem sure_finish {places : List NodeId} {r : Except Fault Expr}
    (h : Finishes places A (finished A side line) r) :
    (do let (e, _) ← sure (finish A side line); return e) = sure r := by
  unfold finished at h
  cases hfin : finish A side line with
  | error f =>
    rw [hfin] at h
    cases r with
    | error f' => exact congrArg sure (Except.error.inj h ▸ rfl)
    | ok e => exact absurd h nofun
  | ok x =>
    rw [hfin] at h
    cases r with
    | error f' => exact absurd h nofun
    | ok e =>
      obtain ⟨B, hB, _⟩ := h
      cases hB
      rfl

/-- **Resolving by number gives what resolving trees gives, and does not break
off.** -/
theorem resolve_eq (parts : List (Part Expr)) :
    resolve parts = sure (Precedence.resolve parts) := by
  have hempty : Holds ({} : Arena Expr) [] := ⟨nofun, List.nodup_nil⟩
  obtain ⟨A, es, hbuild, htrees, hholds⟩ := build_eq hempty parts
  have hbuild : build {} [] parts = .ok (A, ids es) := hbuild
  rw [resolve, hbuild, liftM_ok, sure_bind_ok, Precedence.resolve]
  dsimp only
  by_cases hne : es = []
  · -- an empty run has no root, which is the same fault as an open side
    have hparts : parts = [] := by simpa [hne, trees] using htrees.symm
    rw [hne, hparts]
    simp [ids, collapse, Precedence.collapse]
    rfl
  · have hends := collapse_ends htrees hne hholds
    rw [show trees [] ++ parts.map Part.toTree = parts.map Part.toTree from rfl] at hends
    cases hroot : Precedence.collapse (parts.map Part.toTree) with
    | error f =>
      rw [hroot] at hends
      rw [show collapse A (ids es) = sure (.error f) from hends]
      rfl
    | ok t =>
      rw [hroot] at hends
      obtain ⟨B, id, places, hcollapse, hstands, hnodup⟩ := hends
      rw [hcollapse, sure_bind_ok]
      dsimp only
      rw [hstands.line, liftM_ok, sure_bind_ok]
      exact sure_finish (finished_finishes hstands hnodup t.line)

end MiniC.Strict
