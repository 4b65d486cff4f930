/-
  MiniC.Proofs.Grammar.Acceptance

  **The parser accepts its grammar.**

  An accepted text has an outline without faults, whose words are those of the
  text, so they can be derived.  A text whose words can be derived is read
  without a fault, so all that is left to complain of are names and types, the
  number of arguments, and jumps outside of loops.
-/
import MiniC.Proofs.Checking.Whole
import MiniC.Proofs.Grammar.Reading
import MiniC.Proofs.Typing.Items

namespace MiniC

open Grammar (derived)

/-- The complaints about grammar that no rule of it can express. -/
def beyondRules : List String :=
  ["too many arguments", "not enough arguments", "`break` outside of a loop",
    "`continue` outside of a loop"]

/-- What the checker complains of by itself. -/
theorem Cause.category_of_ofChecking {c : Cause} (h : c.ofChecking = true) :
    c.category = .naming ∨ c.category = .typing ∨
      c.category = .grammar ∧ c.message ∈ beyondRules := by
  unfold ofChecking at h
  split at h
  · rename_i word
    rcases Bool.or_eq_true_iff.1 h with h | h
    · rw [of_decide_eq_true h]
      exact .inr (.inr ⟨rfl, by decide⟩)
    · rw [of_decide_eq_true h]
      exact .inr (.inr ⟨rfl, by decide⟩)
  · exact .inr (.inr ⟨rfl, by decide⟩)
  · exact .inr (.inr ⟨rfl, by decide⟩)
  · rcases Bool.or_eq_true_iff.1 h with h | h
    · exact .inl (of_decide_eq_true h)
    · exact .inr (.inl (of_decide_eq_true h))

/-- **A text is accepted only if its words can be derived from the grammar**,
and if they can be, it is accepted or the complaint is about a name, a type,
the number of arguments or a jump outside of a loop. -/
theorem accepts_grammar (text : String) :
    (∀ p, parse text = .ok p → kinds (Scan.tokens text).list ∈ derived .program) ∧
      (kinds (Scan.tokens text).list ∈ derived .program →
        (∃ p, parse text = .ok p) ∨
          ∃ f, parse text = .error f ∧
            (f.cause.category = .naming ∨ f.cause.category = .typing ∨
              f.cause.category = .grammar ∧ f.cause.message ∈ beyondRules)) := by
  constructor
  · intro p hp
    rw [← words_marks hp]
    exact Outline.derived_items _ ((parse_judged text).passed hp)
  · intro hwords
    cases hparse : parse text with
    | ok p => exact .inl ⟨p, rfl⟩
    | error f =>
      refine .inr ⟨f, rfl, ?_⟩
      -- no fault is in the outline, so the complaint is the checker's own
      have hread := Outline.faultsIn_readItems hwords (Scan.tokens text).endLine
      rcases (parse_judged text).failed hparse hread with hf | hf
      · exact absurd hf (Set.notMem_empty f)
      · exact Cause.category_of_ofChecking hf

/-- A jump that no loop is around, after an expression with signs that are
operators in front and between two. -/
def strayJumpText : String := "int f(int *p) { - *p * -(int) 1; break; }"

/-- The outline of the text. -/
def strayJumpOutline : List Outline.Item :=
  [.function ⟨.int, "f", 1, [⟨.pointer .int, "p", 1⟩], none⟩ (.block
    [.expr (.more (.unary .negate none 1) (.more (.unary .deref none 1) (.more (.name "p" 1)
        (.more (.binary (.arith .mul) 1) (.more (.unary .negate none 1)
          (.more (.unary .cast (some .int) 1) (.last (.int 1 1)))))))),
      .leave 1 none])]

set_option maxRecDepth 10000 in
theorem ofTokens_strayJumpText :
    Outline.ofTokens (Scan.tokens strayJumpText) = strayJumpOutline := by
  cbv

/-- The text is a program of the grammar. -/
theorem derived_strayJumpText : kinds (Scan.tokens strayJumpText).list ∈ derived .program := by
  have hfaults : ∀ i ∈ strayJumpOutline, i.FaultsIn ∅ := by
    refine List.forall_mem_singleton.2 ⟨Outline.faultIn_none ∅, ⟨?_, ?_⟩,
      Outline.faultIn_none ∅, trivial⟩
    · exact ⟨trivial, trivial, trivial, trivial, trivial, trivial, trivial⟩
    · exact .inl (.unary (.unary (.binary rfl (.unary (.unary (.last rfl))))))
  have hwhole : ∀ i ∈ strayJumpOutline, i.whole = true := List.forall_mem_singleton.2 rfl
  have hwords := Outline.words_readItems (Scan.tokens strayJumpText).endLine
    (Scan.tokens strayJumpText).list (by
      show ∀ i ∈ Outline.ofTokens (Scan.tokens strayJumpText), i.whole = true
      rw [ofTokens_strayJumpText]
      exact hwhole)
  rw [← hwords]
  show words (Outline.marksOf (Outline.ofTokens (Scan.tokens strayJumpText))) ∈ derived .program
  rw [ofTokens_strayJumpText]
  exact Outline.derived_items _ hfaults

/-- A program can be derived; the stray jump can be derived, too, and is
rejected for what it is. -/
theorem accepts_grammar_strayJump :
    (parse sampleText = .ok sampleProgram ∧
      kinds (Scan.tokens sampleText).list ∈ derived .program) ∧
    (kinds (Scan.tokens strayJumpText).list ∈ derived .program ∧
      ((∃ p, parse strayJumpText = .ok p) ∨
        ∃ f, parse strayJumpText = .error f ∧
          (f.cause.category = .naming ∨ f.cause.category = .typing ∨
            f.cause.category = .grammar ∧ f.cause.message ∈ beyondRules))) :=
  ⟨⟨parse_sampleText, (accepts_grammar sampleText).1 _ parse_sampleText⟩,
    derived_strayJumpText, (accepts_grammar strayJumpText).2 derived_strayJumpText⟩

end MiniC
