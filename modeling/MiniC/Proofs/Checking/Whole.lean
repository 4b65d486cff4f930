/-
  MiniC.Proofs.Checking.Whole

  What is checked without a fault was read without one.

  An outline without faults is whole (`whole_of_faultsIn`): reading did not end
  within it.  So an outline that passes is whole (`whole_of_items`), and its
  words are the tokens of the text (`words_marks`).
-/
import MiniC.Proofs.Checking.Complaints
import MiniC.Proofs.Reading.Words

namespace MiniC

namespace Outline

/-! ## §1. Expressions -/

mutual

theorem Node.whole_of_faultsIn : (n : Node) → n.FaultsIn ∅ → n.whole = true
  | .int .., _ | .float .., _ | .name .., _ | .unary .., _ | .binary .., _ => rfl
  | .call _ _ args, h => args.whole_of_faultsIn h
  | .group inner, h => inner.whole_of_nodesIn h.1
  | .broken f, h => absurd h (Set.notMem_empty f)

theorem Run.whole_of_nodesIn : (r : Run) → r.NodesIn ∅ → r.whole = true
  | .last n, h => n.whole_of_faultsIn h
  | .more n rest, h => by
    rw [Run.whole, n.whole_of_faultsIn h.1, rest.whole_of_nodesIn h.2]
    rfl

theorem Args.whole_of_faultsIn : (args : Args) → args.FaultsIn ∅ → args.whole = true
  | .none, _ => rfl
  | .arg e rest, h => by
    rw [Args.whole, e.whole_of_nodesIn h.1, rest.whole_of_faultsIn h.2.2]
    rfl

end

theorem Run.whole_of_faultsIn {r : Run} (h : r.FaultsIn ∅) : r.whole = true :=
  r.whole_of_nodesIn h.1

/-! ## §2. Statements -/

theorem isNone_of_faultIn {fault : Option Fault} (h : faultIn ∅ fault) : fault.isNone = true := by
  cases fault with
  | none => rfl
  | some f => exact absurd (h f rfl) (Set.notMem_empty f)

/-- A declaration without faults is whole. -/
theorem Declaration.whole_of_faultsIn {d : Declaration} (h : d.FaultsIn ∅) : d.whole = true := by
  obtain ⟨hlengths, hinit⟩ := h
  rw [Declaration.whole, Bool.and_eq_true, List.all_eq_true]
  refine ⟨fun r hr => Run.whole_of_faultsIn (hlengths r hr), ?_⟩
  cases hd : d.init with
  | none => rfl
  | value e =>
    rw [hd] at hinit
    exact Run.whole_of_faultsIn hinit
  | broken f =>
    rw [hd] at hinit
    exact absurd hinit (Set.notMem_empty f)

mutual

/-- A statement without faults is whole. -/
theorem Stmt.whole_of_faultsIn : (s : Stmt) → s.FaultsIn ∅ → s.whole = true
  | .declare _, h => Declaration.whole_of_faultsIn h
  | .expr _, h | .retValue _, h => Run.whole_of_faultsIn h
  | .ret _, _ => rfl
  | .branch _ body otherwise, h => by
    rw [Stmt.whole, Run.whole_of_faultsIn h.1, wholeAll_of_faultsIn body h.2.1,
      otherwise.whole_of_faultsIn h.2.2]
    rfl
  | .loop _ body, h => by
    rw [Stmt.whole, Run.whole_of_faultsIn h.1, wholeAll_of_faultsIn body h.2]
    rfl
  | .leave .., h | .again .., h => isNone_of_faultIn h
  | .broken f, h => absurd h (Set.notMem_empty f)

/-- The other branch without faults is whole. -/
theorem Else.whole_of_faultsIn : (o : Else) → o.FaultsIn ∅ → o.whole = true
  | .nothing, _ => rfl
  | .branch _ body otherwise, h => by
    rw [Else.whole, Run.whole_of_faultsIn h.1, wholeAll_of_faultsIn body h.2.1,
      otherwise.whole_of_faultsIn h.2.2]
    rfl
  | .block body, h => wholeAll_of_faultsIn body h

theorem wholeAll_of_faultsIn : (ss : List Stmt) → Stmt.AllFaultsIn ∅ ss → Stmt.wholeAll ss = true
  | [], _ => rfl
  | s :: ss, h => by
    rw [Stmt.wholeAll, s.whole_of_faultsIn h.1, wholeAll_of_faultsIn ss h.2]
    rfl

end

/-! ## §3. Items -/

/-- **An item without faults is whole.** -/
theorem Item.whole_of_faultsIn {i : Item} (h : i.FaultsIn ∅) : i.whole = true := by
  cases i with
  | imported sig fault =>
    rw [Item.whole, isNone_of_faultIn h.1, isNone_of_faultIn h.2]
    rfl
  | function sig body =>
    rw [Item.whole, isNone_of_faultIn h.1]
    cases body with
    | none => rfl
    | block ss => exact wholeAll_of_faultsIn ss h.2
    | broken f => exact absurd h.2 (Set.notMem_empty f)
  | global d => exact Declaration.whole_of_faultsIn h
  | broken f => exact absurd h (Set.notMem_empty f)

end Outline

/-- **Items that are checked without a fault are whole.** -/
theorem Check.whole_of_items {is : List Outline.Item} {found found' : Found}
    (h : items found is = .ok found') : ∀ i ∈ is, i.whole = true :=
  fun i hi => Outline.Item.whole_of_faultsIn ((items_judged is).passed h i hi)

/-! ## §4. Programs -/

/-- The marks of a source text. -/
def marks (text : String) : List Mark := Outline.marksOf (Outline.ofTokens (Scan.tokens text))

/-- **The marks of an accepted text hold its words in order**, and no
others. -/
theorem words_marks {text : String} {p : Program} (h : parse text = .ok p) :
    words (marks text) = kinds (Scan.tokens text).list := by
  obtain ⟨found, hitems, _⟩ := bind_eq_ok.1 h
  exact Outline.words_readItems _ _ (Check.whole_of_items hitems)

end MiniC
