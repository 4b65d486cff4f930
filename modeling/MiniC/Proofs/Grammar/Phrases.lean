/-
  MiniC.Proofs.Grammar.Phrases

  **The grammar of the language.**

  A grammar has a rule for each kind of phrase, which says of what phrases and
  words it is made, one after another (`*`), one or another (`+`), or any
  number of them (`∗`).  The phrases that can be derived are those that the
  rules force (`derived`): the least languages that the rules lead nowhere out
  of.  So what holds of the words of every phrase is shown rule by rule
  (`derived_le`), and a phrase is derived from its parts by its rule
  (`mem_derived`).

  Two rules repeat an alternation: operands with operators between them, and
  phrases with commas between them.  Both can be taken apart and put together
  from the left (`chain_le`, `commaSeparated_le`), as a reader does it.
-/
import Mathlib
import MiniC.Token

namespace MiniC.Grammar

open Computability

variable {L : Language Kind}

/-! ## §1. Rules -/

/-- The kinds of phrases. -/
inductive Phrase where
  | program | imported | function | head | param | type | declaration
  | stmt | test | loop | block
  | expr | unary | binary | operand | args
  deriving DecidableEq, Repr

/-- One piece of punctuation. -/
def sign (p : Punct) : Language Kind := {[.punct p]}

theorem mem_sign (p : Punct) : [.punct p] ∈ sign p := rfl

/-- One reserved word. -/
def keyword (k : Keyword) : Language Kind := {[.keyword k]}

theorem mem_keyword (k : Keyword) : [.keyword k] ∈ keyword k := rfl

/-- One name. -/
def identifier : Language Kind := {ks | ∃ x, ks = [.identifier x]}

theorem mem_identifier (x : String) : [.identifier x] ∈ identifier := ⟨x, rfl⟩

/-- One number. -/
def literal : Language Kind := {ks | (∃ n, ks = [.integer n]) ∨ ∃ x, ks = [.float x]}

/-- A phrase or nothing. -/
def optional (L : Language Kind) : Language Kind := 1 + L

theorem nil_mem_optional (L : Language Kind) : [] ∈ optional L := .inl rfl

theorem mem_optional {ks : List Kind} (h : ks ∈ L) : ks ∈ optional L := .inr h

/-- One or more, with commas between them. -/
def commaSeparated (L : Language Kind) : Language Kind := L * (sign .comma * L)∗

/-- The signs that stand between two operands. -/
def binarySigns : List Punct :=
  [.eq, .plus, .minus, .star, .slash, .eqEq, .bangEq, .lt, .gt, .ltEq, .gtEq,
    .ampAmp, .pipePipe, .amp, .pipe]

/-- The rules, given the phrases that the parts may be. -/
def rules (L : Phrase → Language Kind) : Phrase → Language Kind
  | .program => (L .imported + L .function + L .declaration)∗
  | .imported => keyword .kwExtern * L .head * sign .semicolon
  | .function => L .head * (sign .semicolon + L .block)
  | .head =>
    L .type * identifier * sign .lparen * optional (commaSeparated (L .param)) * sign .rparen
  | .param => L .type * identifier
  | .type => (keyword .kwInt + keyword .kwFloat + keyword .kwVoid) * (sign .star)∗
  | .declaration =>
    L .type * identifier * (sign .lbracket * L .expr * sign .rbracket)∗ *
      optional (sign .eq * L .expr) * sign .semicolon
  | .stmt =>
    L .declaration + keyword .kwReturn * optional (L .expr) * sign .semicolon + L .test + L .loop +
      keyword .kwBreak * sign .semicolon + keyword .kwContinue * sign .semicolon +
      L .expr * sign .semicolon
  | .test =>
    keyword .kwIf * sign .lparen * L .expr * sign .rparen * L .block *
      optional (keyword .kwElse * (L .test + L .block))
  | .loop => keyword .kwWhile * sign .lparen * L .expr * sign .rparen * L .block
  | .block => sign .lbrace * (L .stmt)∗ * sign .rbrace
  | .expr => (L .unary)∗ * L .operand * (L .binary * (L .unary)∗ * L .operand)∗
  | .unary =>
    sign .minus + sign .star + sign .amp + sign .bang + sign .lparen * L .type * sign .rparen
  | .binary => {ks | ∃ p ∈ binarySigns, ks = [.punct p]}
  | .operand =>
    literal + identifier + identifier * sign .lparen * L .args * sign .rparen +
      sign .lparen * L .expr * sign .rparen
  | .args => optional (commaSeparated (L .expr))

/-! ## §2. Derived phrases -/

/-- With more phrases for the parts there are more phrases. -/
theorem rules_mono : Monotone rules := by
  intro L L' h p
  have h : ∀ q, L q ≤ L' q := h
  cases p with
  | type => exact le_rfl
  | binary => exact le_rfl
  | _ =>
    dsimp only [rules, optional, commaSeparated]
    gcongr <;> exact h _

/-- The phrases that the rules force. -/
def derived : Phrase → Language Kind := OrderHom.lfp ⟨rules, rules_mono⟩

/-- A phrase is made of phrases by its rule. -/
theorem derived_eq_rules (p : Phrase) : derived p = rules derived p :=
  (congrFun (OrderHom.map_lfp ⟨rules, rules_mono⟩) p).symm

theorem mem_derived {p : Phrase} {ks : List Kind} (h : ks ∈ rules derived p) : ks ∈ derived p := by
  rw [derived_eq_rules]
  exact h

/-- **What each rule keeps holds of every phrase.** -/
theorem derived_le {L : Phrase → Language Kind} (h : ∀ p, rules L p ≤ L p) (p : Phrase) :
    derived p ≤ L p :=
  OrderHom.lfp_le ⟨rules, rules_mono⟩ h p

/-! ## §3. Alternations -/

/-- What is repeated after `a` can be repeated in front of it. -/
theorem mul_kstar_slide (a b : Language Kind) : a * (b * a)∗ ≤ (a * b)∗ * a := by
  refine mul_kstar_le ?_ ?_
  · calc
      a = 1 * a := (one_mul a).symm
      _ ≤ (a * b)∗ * a := by gcongr; exact one_le_kstar
  · calc
      (a * b)∗ * a * (b * a) = (a * b)∗ * (a * b) * a := by simp only [mul_assoc]
      _ ≤ (a * b)∗ * a := by gcongr; exact kstar_mul_le_kstar

/-- **Taking a chain of operands apart from the left**: it begins with an
operator in front, or with an operand, after which it ends or goes on with an
operator between two. -/
theorem chain_le {U O B P : Language Kind} (operand : O ≤ P) (unary : U * P ≤ P)
    (binary : O * B * P ≤ P) : U∗ * O * (B * U∗ * O)∗ ≤ P := by
  -- operators in front are counted to the operator between two before them
  have hfront : U∗ * P ≤ P := kstar_mul_le_self unary
  have hmore : O * (B * U∗) * P ≤ P := calc
    O * (B * U∗) * P = O * B * (U∗ * P) := by simp only [mul_assoc]
    _ ≤ O * B * P := by gcongr
    _ ≤ P := binary
  calc
    U∗ * O * (B * U∗ * O)∗ = U∗ * (O * (B * U∗ * O)∗) := mul_assoc _ _ _
    _ ≤ U∗ * ((O * (B * U∗))∗ * O) := mul_le_mul' le_rfl (mul_kstar_slide O (B * U∗))
    _ ≤ U∗ * P := by gcongr; exact kstar_mul_le operand hmore
    _ ≤ P := hfront

/-- An operand is an expression. -/
theorem expr_of_operand {ks : List Kind} (h : ks ∈ derived .operand) : ks ∈ derived .expr := by
  refine mem_derived (p := .expr) ?_
  have hparts := Language.append_mem_mul (Language.append_mem_mul
    (Language.nil_mem_kstar (derived .unary)) h)
    (Language.nil_mem_kstar (derived .binary * (derived .unary)∗ * derived .operand))
  rw [List.nil_append, List.append_nil] at hparts
  exact hparts

/-- A unary operator before an expression is one. -/
theorem expr_of_unary {us ks : List Kind} (hu : us ∈ derived .unary) (h : ks ∈ derived .expr) :
    us ++ ks ∈ derived .expr := by
  have hrule : derived .unary * rules derived .expr ≤ rules derived .expr := by
    dsimp only [rules]
    rw [← mul_assoc, ← mul_assoc]
    gcongr
    exact mul_kstar_le_kstar
  rw [derived_eq_rules] at h ⊢
  exact hrule (Language.append_mem_mul hu h)

/-- An operand, a binary operator and an expression are one. -/
theorem expr_of_binary {os bs ks : List Kind} (ho : os ∈ derived .operand)
    (hb : bs ∈ derived .binary) (h : ks ∈ derived .expr) : os ++ (bs ++ ks) ∈ derived .expr := by
  have hrule : derived .operand * (derived .binary * rules derived .expr) ≤
      rules derived .expr := by
    dsimp only [rules]
    calc
      _ = 1 * derived .operand * ((derived .binary * (derived .unary)∗ * derived .operand) *
          (derived .binary * (derived .unary)∗ * derived .operand)∗) := by
        simp only [one_mul, mul_assoc]
      _ ≤ _ := by
        gcongr
        · exact one_le_kstar
        · exact mul_kstar_le_kstar
  rw [derived_eq_rules] at h ⊢
  exact hrule (Language.append_mem_mul ho (Language.append_mem_mul hb h))

/-- **Taking phrases with commas between them apart from the left.** -/
theorem commaSeparated_le {P : Language Kind} (last : L ≤ P) (more : L * sign .comma * P ≤ P) :
    commaSeparated L ≤ P :=
  (mul_kstar_slide L (sign .comma)).trans (kstar_mul_le last more)

theorem commaSeparated_of_last {ks : List Kind} (h : ks ∈ L) : ks ∈ commaSeparated L := by
  have hparts := Language.append_mem_mul h (Language.nil_mem_kstar (sign .comma * L))
  rw [List.append_nil] at hparts
  exact hparts

/-- One more in front of a list with commas. -/
theorem commaSeparated_of_more {ks ks' : List Kind} (h : ks ∈ L) (h' : ks' ∈ commaSeparated L) :
    ks ++ Kind.punct .comma :: ks' ∈ commaSeparated L := by
  have hrule : L * (sign .comma * commaSeparated L) ≤ commaSeparated L := by
    dsimp only [commaSeparated]
    rw [← mul_assoc (sign .comma)]
    gcongr
    exact mul_kstar_le_kstar
  exact hrule (Language.append_mem_mul h (Language.append_mem_mul (mem_sign .comma) h'))

/-- One phrase more at the front of many. -/
theorem append_mem_kstar {ks ks' : List Kind} (h : ks ∈ L) (h' : ks' ∈ L∗) : ks ++ ks' ∈ L∗ :=
  (mul_kstar_le_kstar : L * L∗ ≤ L∗) (Language.append_mem_mul h h')

end MiniC.Grammar
