/-
  MiniC.Proofs.Strict.Arena

  The nodes of a run, in a table.

  The nodes of an expression that is being read stand in a table and refer to
  each other by their places in it.  A look-up of a place that the table does
  not have breaks off.

  A table holds a run of trees if each node of the run stands for its tree
  and no two trees share a place (`Holds`).  The places of the trees, read
  from left to right, stay the same while the run collapses: handing a node to
  its neighbour joins two stretches that lie side by side.  So trees never
  come to overlap, and what is filled in at one node leaves the others as they
  were (`Holds.toLeft`, `Holds.toRight`).
-/
import MiniC.Precedence
import MiniC.Proofs.Strict.Breach

namespace MiniC.Strict

variable {α : Type}

/-! ## §1. Nodes in a table -/

/-- A node, by its place in the table. -/
structure NodeId where
  index : Nat
  deriving DecidableEq, Repr

/-- What stands in the table for a node.  A side is open, or another node. -/
inductive Cell (α : Type) where
  | operand (a : α) (line : Nat)
  | unary (op : UnaryOp) (target : Option Ty) (line : Nat) (arg : Option NodeId)
  | binary (op : BinaryOp) (line : Nat) (left right : Option NodeId)
  deriving DecidableEq, Repr

namespace Cell

/-- The cell of an element of a run, with its sides open. -/
def ofPart : Part α → Cell α
  | .operand a line => .operand a line
  | .unary op target line => .unary op target line none
  | .binary op line => .binary op line none none

/-- No side is open. -/
def isFinished : Cell α → Bool
  | .operand .. => true
  | .unary _ _ _ arg => arg.isSome
  | .binary _ _ left right => left.isSome && right.isSome

/-- The line of the node. -/
def line : Cell α → Nat
  | .operand _ line | .unary _ _ line _ | .binary _ line _ _ => line

/-- The power with which the node asks for an operand on its left. -/
def openLeft? : Cell α → Option Nat
  | .binary op _ none _ => some op.leftPower
  | _ => none

/-- The power with which the node asks for an operand on its right. -/
def openRight? : Cell α → Option Nat
  | .binary op _ _ none => some op.rightPower
  | .unary _ _ _ none => some unaryPower
  | _ => none

/-- The node with `child` on its left. -/
def fillLeft (child : NodeId) : Cell α → Cell α
  | .binary op line _ right => .binary op line (some child) right
  | c => c

/-- The node with `child` on its right. -/
def fillRight (child : NodeId) : Cell α → Cell α
  | .binary op line left _ => .binary op line left (some child)
  | .unary op target line _ => .unary op target line (some child)
  | c => c

end Cell

/-- The nodes of one run.  A cell is taken out once its node is typed. -/
abbrev Arena (α : Type) := Table (Option (Cell α))

namespace Arena

/-- What stands at a place, which must be there. -/
def cell (A : Arena α) (id : NodeId) : Except Breach (Option (Cell α)) :=
  match A.get? id.index with
  | some c => .ok c
  | none => .error (.noNode id.index)

/-- No side of a node is open. -/
def isFinished (A : Arena α) (id : NodeId) : Except Breach Bool := do
  return (← A.cell id).any Cell.isFinished

/-- The line of a node. -/
def line (A : Arena α) (id : NodeId) : Except Breach Nat := do
  return ((← A.cell id).map Cell.line).getD 0

/-- The power with which a node asks for an operand on its left. -/
def openLeft? (A : Arena α) (id : NodeId) : Except Breach (Option Nat) := do
  return (← A.cell id).bind Cell.openLeft?

/-- The power with which a node asks for an operand on its right. -/
def openRight? (A : Arena α) (id : NodeId) : Except Breach (Option Nat) := do
  return (← A.cell id).bind Cell.openRight?

/-- Puts `child` on the left of a node, which must be there. -/
def fillLeft (A : Arena α) (id child : NodeId) : Except Breach (Arena α) := do
  let _ ← A.cell id
  return A.modify id.index (·.map (Cell.fillLeft child))

/-- Puts `child` on the right of a node, which must be there. -/
def fillRight (A : Arena α) (id child : NodeId) : Except Breach (Arena α) := do
  let _ ← A.cell id
  return A.modify id.index (·.map (Cell.fillRight child))

/-- Takes out the cell of a node, if there is one. -/
def take (A : Arena α) (id : Option NodeId) : Option (Cell α × Arena α) := do
  let id ← id
  let c ← (A.get? id.index).join
  return (c, A.modify id.index fun _ => none)

/-- How many cells have not been taken out. -/
def filled (A : Arena α) : Nat := A.rows.toList.countP Option.isSome

/-- Taking a cell leaves fewer. -/
theorem filled_take {A B : Arena α} {id : Option NodeId} {c : Cell α}
    (h : A.take id = some (c, B)) : B.filled < A.filled := by
  obtain ⟨id, rfl, h⟩ := Option.bind_eq_some_iff.1 h
  obtain ⟨d, hd, h⟩ := Option.bind_eq_some_iff.1 h
  cases h
  obtain ⟨hlt, hc⟩ := Array.getElem?_eq_some_iff.1 (Option.join_eq_some_iff.1 hd)
  have hpos : 0 < A.filled := List.countP_pos_iff.2
    ⟨some c, by rw [← hc]; exact Array.getElem_mem_toList hlt, rfl⟩
  have hrow : A.rows.toList[id.index] = some c := hc
  have hset : filled (A.modify id.index fun _ => none) = A.filled - 1 := by
    show (A.rows.modify id.index fun _ => none).toList.countP Option.isSome = _
    rw [Array.toList_modify, List.modify_eq_set, List.countP_set hlt, hrow]
    rfl
  omega

end Arena

/-! ## §2. What a table holds -/

/-- A side stands for a tree; `places` are those of its nodes, from left to
right. -/
inductive Stands (A : Arena α) : Option NodeId → Tree α → List NodeId → Prop where
  | hole : Stands A none .hole []
  | operand {id : NodeId} {a : α} {line : Nat}
      (h : A.get? id.index = some (some (.operand a line))) :
      Stands A (some id) (.operand a line) [id]
  | unary {id : NodeId} {op : UnaryOp} {target : Option Ty} {line : Nat} {arg : Option NodeId}
      {t : Tree α} {places : List NodeId}
      (h : A.get? id.index = some (some (.unary op target line arg)))
      (harg : Stands A arg t places) :
      Stands A (some id) (.unary op target line t) (id :: places)
  | binary {id : NodeId} {op : BinaryOp} {line : Nat} {left right : Option NodeId}
      {l r : Tree α} {before after : List NodeId}
      (h : A.get? id.index = some (some (.binary op line left right)))
      (hleft : Stands A left l before) (hright : Stands A right r after) :
      Stands A (some id) (.binary op line l r) (before ++ id :: after)

namespace Stands

variable {A B : Arena α} {side : Option NodeId} {id : NodeId} {t : Tree α} {places : List NodeId}

/-- A tree depends on its own places only. -/
theorem congr (h : Stands A side t places)
    (hAB : ∀ id ∈ places, B.get? id.index = A.get? id.index) : Stands B side t places := by
  induction h with
  | hole => exact .hole
  | operand h => exact .operand ((hAB _ (List.mem_singleton_self _)).trans h)
  | unary h harg ih =>
    have htop := (hAB _ List.mem_cons_self).trans h
    exact .unary htop (ih fun id hid => hAB id (List.mem_cons_of_mem _ hid))
  | binary h hleft hright ihl ihr =>
    have htop := (hAB _ (by simp)).trans h
    exact .binary htop (ihl fun id hid => hAB id (by simp [hid]))
      (ihr fun id hid => hAB id (by simp [hid]))

/-- All places of a tree are in the table. -/
theorem lt_size (h : Stands A side t places) : ∀ id ∈ places, id.index < A.size := by
  have known : ∀ {id : NodeId} {c : Option (Cell α)}, A.get? id.index = some c →
      id.index < A.size := fun h => Table.isSome_get?.1 (by rw [h]; rfl)
  induction h with
  | hole => exact fun id hid => absurd hid List.not_mem_nil
  | operand h =>
    intro id hid
    rw [List.mem_singleton.1 hid]
    exact known h
  | unary h harg ih =>
    intro id hid
    rcases List.mem_cons.1 hid with rfl | hid
    · exact known h
    · exact ih id hid
  | binary h hleft hright ihl ihr =>
    intro id hid
    rcases List.mem_append.1 hid with hid | hid
    · exact ihl id hid
    · rcases List.mem_cons.1 hid with rfl | hid
      · exact known h
      · exact ihr id hid

/-- A side is open exactly if it stands for a hole. -/
theorem isSome_side (h : Stands A side t places) : side.isSome = !t.isHole := by
  cases h <;> rfl

/-- The cell of a node says of the node what the tree says of its root. -/
theorem cell (h : Stands A (some id) t places) :
    ∃ c, A.cell id = .ok (some c) ∧ c.isFinished = t.isFinished ∧ c.line = t.line ∧
      c.openLeft? = t.openLeft? ∧ c.openRight? = t.openRight? := by
  cases h with
  | operand h => exact ⟨_, by rw [Arena.cell, h], rfl, rfl, rfl, rfl⟩
  | unary h harg =>
    refine ⟨_, by rw [Arena.cell, h], ?_, rfl, rfl, ?_⟩
    · exact harg.isSome_side
    · cases harg <;> rfl
  | binary h hleft hright =>
    refine ⟨_, by rw [Arena.cell, h], ?_, rfl, ?_, ?_⟩
    · rw [Cell.isFinished, hleft.isSome_side, hright.isSome_side, Tree.isFinished]
    · cases hleft <;> rfl
    · cases hleft <;> cases hright <;> rfl

theorem isFinished (h : Stands A (some id) t places) : A.isFinished id = .ok t.isFinished := by
  obtain ⟨c, hc, hfin, _⟩ := h.cell
  rw [Arena.isFinished, hc, ← hfin]
  rfl

theorem line (h : Stands A (some id) t places) : A.line id = .ok t.line := by
  obtain ⟨c, hc, _, hline, _⟩ := h.cell
  rw [Arena.line, hc, ← hline]
  rfl

theorem openLeft? (h : Stands A (some id) t places) : A.openLeft? id = .ok t.openLeft? := by
  obtain ⟨c, hc, _, _, hopen, _⟩ := h.cell
  rw [Arena.openLeft?, hc, ← hopen]
  rfl

theorem openRight? (h : Stands A (some id) t places) : A.openRight? id = .ok t.openRight? := by
  obtain ⟨c, hc, _, _, _, hopen⟩ := h.cell
  rw [Arena.openRight?, hc, ← hopen]
  rfl

end Stands

/-- Only the place of a node changes. -/
def OnlyAt (id : NodeId) (A B : Arena α) : Prop :=
  ∀ other, other ≠ id → B.get? other.index = A.get? other.index

theorem Stands.elsewhere {A B : Arena α} {id : NodeId} {side : Option NodeId} {t : Tree α}
    {places : List NodeId} (h : Stands A side t places) (hAB : OnlyAt id A B)
    (hid : id ∉ places) : Stands B side t places :=
  h.congr fun other hother => hAB other fun heq => hid (heq ▸ hother)

theorem onlyAt_modify (A : Arena α) (id : NodeId) (f : Option (Cell α) → Option (Cell α)) :
    OnlyAt id A (A.modify id.index f) := by
  intro other hne
  have hidx : id.index ≠ other.index := fun h => hne (by cases id; cases other; simp_all)
  simp [Table.get?, Table.modify, Array.getElem?_modify, hidx]

theorem get?_modify {A : Arena α} {id : NodeId} {c : Option (Cell α)}
    (h : A.get? id.index = some c) (f : Option (Cell α) → Option (Cell α)) :
    (A.modify id.index f).get? id.index = some (f c) := by
  have hrow : A.rows[id.index]? = some c := h
  simp [Table.get?, Table.modify, Array.getElem?_modify, hrow]

/-- The place of a node is among those of its tree. -/
theorem Stands.mem_places {A : Arena α} {id : NodeId} {t : Tree α} {places : List NodeId}
    (h : Stands A (some id) t places) : id ∈ places := by
  cases h <;> simp

section Filling

variable {A : Arena α} {id child : NodeId} {t c : Tree α} {places others : List NodeId} {p : Nat}

/-- A node that asks for an operand on its right gets it.  The places of the
operand come after those of the node. -/
theorem Stands.fillRight (h : Stands A (some id) t places)
    (hchild : Stands A (some child) c others) (hasks : t.openRight? = some p)
    (hnodup : (places ++ others).Nodup) :
    ∃ B, A.fillRight id child = .ok B ∧ OnlyAt id A B ∧
      Stands B (some id) (t.fillRight c) (places ++ others) := by
  obtain ⟨cell, hcell, _⟩ := h.cell
  have honly := onlyAt_modify A id (·.map (Cell.fillRight child))
  refine ⟨_, by rw [Arena.fillRight, hcell]; rfl, honly, ?_⟩
  have hid : id ∉ others := List.disjoint_of_nodup_append hnodup h.mem_places
  have hchild' := hchild.elsewhere honly hid
  cases h with
  | operand h => exact absurd hasks nofun
  | unary h harg =>
    cases harg with
    | hole => exact .unary (get?_modify h _) hchild'
    | operand => exact absurd hasks nofun
    | unary => exact absurd hasks nofun
    | binary => exact absurd hasks nofun
  | @binary _ op line left right l r before after h hleft hright =>
    have hleft' : Stands (A.modify id.index _) left l before :=
      hleft.elsewhere honly (by grind)
    cases hright with
    | hole =>
      rw [List.append_assoc]
      exact .binary (get?_modify h _) hleft' hchild'
    | operand => cases hleft <;> exact absurd hasks nofun
    | unary => cases hleft <;> exact absurd hasks nofun
    | binary => cases hleft <;> exact absurd hasks nofun

/-- A node that asks for an operand on its left gets it.  The places of the
operand come before those of the node. -/
theorem Stands.fillLeft (h : Stands A (some id) t places)
    (hchild : Stands A (some child) c others) (hasks : t.openLeft? = some p)
    (hnodup : (others ++ places).Nodup) :
    ∃ B, A.fillLeft id child = .ok B ∧ OnlyAt id A B ∧
      Stands B (some id) (t.fillLeft c) (others ++ places) := by
  obtain ⟨cell, hcell, _⟩ := h.cell
  have honly := onlyAt_modify A id (·.map (Cell.fillLeft child))
  refine ⟨_, by rw [Arena.fillLeft, hcell]; rfl, honly, ?_⟩
  have hid : id ∉ others := fun hother =>
    List.disjoint_of_nodup_append hnodup hother h.mem_places
  have hchild' := hchild.elsewhere honly hid
  cases h with
  | operand h => exact absurd hasks nofun
  | unary h harg => exact absurd hasks nofun
  | @binary _ op line left right l r before after h hleft hright =>
    have hright' : Stands (A.modify id.index _) right r after :=
      hright.elsewhere honly (by grind)
    cases hleft with
    | hole => exact .binary (get?_modify h _) hchild' hright'
    | operand => exact absurd hasks nofun
    | unary => exact absurd hasks nofun
    | binary => exact absurd hasks nofun

end Filling

/-- The cell of a node is there to be taken out. -/
theorem take_eq {A : Arena α} {id : NodeId} {c : Cell α} (h : A.get? id.index = some (some c)) :
    A.take (some id) = some (c, A.modify id.index fun _ => none) := by
  show ((A.get? id.index).join >>= fun c => some (c, A.modify id.index fun _ => none)) = _
  rw [h]
  rfl

/-- Only the places given change. -/
def OnlyIn (places : List NodeId) (A B : Arena α) : Prop :=
  ∀ id ∉ places, B.get? id.index = A.get? id.index

/-! ## §3. Runs -/

/-- A node of a run, with the tree it stands for and its places. -/
structure Entry (α : Type) where
  id : NodeId
  tree : Tree α
  places : List NodeId

/-- The nodes of a run. -/
def ids (run : List (Entry α)) : List NodeId := run.map (·.id)

/-- The trees of a run. -/
def trees (run : List (Entry α)) : List (Tree α) := run.map (·.tree)

/-- The table holds a run: each node stands for its tree, and no place is
taken twice. -/
structure Holds (A : Arena α) (run : List (Entry α)) : Prop where
  stands : ∀ e ∈ run, Stands A (some e.id) e.tree e.places
  nodup : (run.flatMap (·.places)).Nodup

/-- A node with its right neighbour in the open side. -/
def Entry.takeRight (e next : Entry α) : Entry α :=
  ⟨e.id, e.tree.fillRight next.tree, e.places ++ next.places⟩

/-- A node with its left neighbour in the open side. -/
def Entry.takeLeft (e previous : Entry α) : Entry α :=
  ⟨e.id, e.tree.fillLeft previous.tree, previous.places ++ e.places⟩

section Handing

variable {A : Arena α} {before after : List (Entry α)} {e next : Entry α} {p : Nat}

/-- What is filled in at a node leaves the rest of the run alone. -/
theorem Holds.replace {B : Arena α} {id : NodeId} {joined : Entry α}
    (h : Holds A (before ++ e :: next :: after)) (honly : OnlyAt id A B)
    (hid : id ∈ e.places ++ next.places) (hjoined : joined.places = e.places ++ next.places)
    (hstands : Stands B (some joined.id) joined.tree joined.places) :
    Holds B (before ++ joined :: after) := by
  have hflat : (before ++ joined :: after).flatMap (·.places) =
      (before ++ e :: next :: after).flatMap (·.places) := by
    simp [hjoined]
  have hnodup := h.nodup
  refine ⟨fun x hx => ?_, hflat ▸ hnodup⟩
  have hother : ∀ x ∈ before ++ after, id ∉ x.places := by
    intro x hx hmem
    simp only [List.flatMap_append, List.flatMap_cons] at hnodup
    have hx' : x ∈ before ∨ x ∈ after := List.mem_append.1 hx
    grind
  rcases List.mem_append.1 hx with hx | hx
  · exact (h.stands x (by simp [hx])).elsewhere honly (hother x (by simp [hx]))
  · rcases List.mem_cons.1 hx with rfl | hx
    · exact hstands
    · exact (h.stands x (by simp [hx])).elsewhere honly (hother x (by simp [hx]))

theorem Holds.nodup_pair (h : Holds A (before ++ e :: next :: after)) :
    (e.places ++ next.places).Nodup := by
  have hnodup := h.nodup
  simp only [List.flatMap_append, List.flatMap_cons, ← List.append_assoc] at hnodup
  grind

/-- A node hands itself to the neighbour before it. -/
theorem Holds.toLeft (h : Holds A (before ++ e :: next :: after))
    (hasks : e.tree.openRight? = some p) :
    ∃ B, A.fillRight e.id next.id = .ok B ∧ Holds B (before ++ e.takeRight next :: after) := by
  have he := h.stands e (by simp)
  obtain ⟨B, hB, honly, hstands⟩ := he.fillRight (h.stands next (by simp)) hasks h.nodup_pair
  exact ⟨B, hB, h.replace honly (List.mem_append_left _ he.mem_places) rfl hstands⟩

/-- A node hands itself to the neighbour after it. -/
theorem Holds.toRight (h : Holds A (before ++ e :: next :: after))
    (hasks : next.tree.openLeft? = some p) :
    ∃ B, A.fillLeft next.id e.id = .ok B ∧ Holds B (before ++ next.takeLeft e :: after) := by
  have hnext := h.stands next (by simp)
  obtain ⟨B, hB, honly, hstands⟩ := hnext.fillLeft (h.stands e (by simp)) hasks h.nodup_pair
  exact ⟨B, hB, h.replace honly (List.mem_append_right _ hnext.mem_places) rfl hstands⟩

end Handing

/-- A node just entered stands for its element. -/
theorem stands_insert (A : Arena α) (p : Part α) :
    Stands (A.insert (some (Cell.ofPart p))).2 (some ⟨A.size⟩) p.toTree [⟨A.size⟩] := by
  have hget := Table.get?_insert A (some (Cell.ofPart p))
  cases p with
  | operand a line => exact .operand hget
  | unary op target line => exact .unary hget .hole
  | binary op line => exact .binary hget .hole .hole

/-- A new cell is held besides the others. -/
theorem Holds.insert {A : Arena α} {es : List (Entry α)} (h : Holds A es) (p : Part α) :
    Holds (A.insert (some (Cell.ofPart p))).2 (es ++ [⟨⟨A.size⟩, p.toTree, [⟨A.size⟩]⟩]) := by
  have hlt : ∀ e ∈ es, ∀ id ∈ e.places, id.index < A.size := fun e he => (h.stands e he).lt_size
  constructor
  · intro e he
    rcases List.mem_append.1 he with he | he
    · exact (h.stands e he).congr fun id hid => Table.get?_insert_of_lt (hlt e he id hid)
    · rw [List.mem_singleton.1 he]
      exact stands_insert A p
  · rw [List.flatMap_append]
    refine List.nodup_append'.2 ⟨h.nodup, by simp, fun id hid hnew => ?_⟩
    obtain ⟨e, he, hid⟩ := List.mem_flatMap.1 hid
    have hnew : id = ⟨A.size⟩ := by simpa using hnew
    have := hlt e he id hid
    rw [hnew] at this
    exact Nat.lt_irrefl _ this

end MiniC.Strict
