/-
  MiniC.Proofs.Scanning.Renaming

  **Other names in a text are other names in its tokens.**

  Renaming walks over a text and writes another name wherever it finds one;
  gaps and other words are copied.  If the new names are names too, scanning
  what was written gives the tokens of the text with those names, on the same
  lines (`tokensFrom_renamedFrom`).
-/
import MiniC.Proofs.Scanning.Lookahead
import MiniC.Proofs.Scanning.Splicing

namespace MiniC

open Text (Cursor)

/-- The token with another name, if it is one. -/
def Kind.renamed (ρ : String → String) : Kind → Kind
  | .identifier x => .identifier (ρ x)
  | k => k

theorem Kind.renamed_ne {ρ : String → String} {k : Kind} (h : k ≠ .endOfFile) :
    k.renamed ρ ≠ .endOfFile := by
  cases k with
  | identifier x => nofun
  | _ => exact h

namespace Scan

variable {x : String} {p : Place}

/-! ## §1. Names -/

/-- The text is scanned as a name: it is no reserved word. -/
def isName (x : String) : Bool :=
  match x.toList with
  | [] => false
  | c :: cs => isNameStart c && cs.all isNameChar && (Keyword.ofSpelling? x).isNone

/-- A letter starts a word, as long as the letters go on. -/
theorem lexeme_of_isNameStart {c : Char} (h : isNameStart c = true) (cs : Cursor) :
    lexeme c cs = (word (c :: cs.takeWhile isNameChar), cs.dropWhile isNameChar) := by
  have hdigit : Text.isDigit c = false :=
    (Bool.or_eq_false_iff.1 (isNumberChar_of_isNameStart h)).1
  rw [lexeme, hdigit, if_neg Bool.false_ne_true, if_pos h]
  all_goals
    rintro rfl
    cases h

/-- A name is scanned as one where it ends. -/
theorem spelled_name (hx : isName x = true) {rest : Cursor}
    (hrest : begins isNameChar rest = false) : Spelled (.identifier x) x.toList rest := by
  unfold isName at hx
  split at hx
  · cases hx
  · rename_i c cs hcs
    simp only [Bool.and_eq_true, Option.isNone_iff_eq_none] at hx
    obtain ⟨⟨hc, hall⟩, hkeyword⟩ := hx
    rw [hcs]
    refine .intro (.intro ?_ ?_) ?_
    · cases hwhite : isWhite c with
      | false => rfl
      | true => rcases eq_of_isWhite hwhite with rfl | rfl | rfl | rfl | rfl <;> cases hc
    · rintro rfl
      cases hc
    · obtain ⟨htake, hdrop⟩ := takeWhile_run (List.all_eq_true.1 hall) hrest
      rw [lexeme_of_isNameStart hc, htake, hdrop, word, ← hcs, String.ofList_toList, hkeyword]

theorem name?_longer (c : Char) (long short : Punct) (cs : Cursor) :
    (longer c long short cs).1.name? = none := by
  unfold longer
  split <;> rfl

theorem name?_closeQuote (c : Char) (cs : Cursor) : (closeQuote c cs).1.name? = none := by
  unfold closeQuote
  split <;> rfl

theorem name?_character (cs : Cursor) : (character cs).1.name? = none := by
  have hescape (cs : Cursor) : (escape cs).1.name? = none := by
    fun_cases escape cs <;> first | rfl | exact name?_closeQuote _ _
  fun_cases character cs <;> first | rfl | exact name?_closeQuote _ _ | exact hescape _

theorem name?_number (run : List Char) : (number run).name? = none := by
  unfold number
  generalize run.count '.' = points
  fun_cases numberWith points run <;> rfl

/-- Where a name was scanned, one begins, and what follows goes on otherwise. -/
theorem name_of_lexeme {c : Char} {cs rest : Cursor} (h : lexeme c cs = (.identifier x, rest)) :
    isNameStart c = true ∧ begins isNameChar rest = false := by
  have hname : (lexeme c cs).1.name? = some x := by
    rw [h]
    rfl
  cases hc : isNameStart c with
  | true =>
    rw [lexeme_of_isNameStart hc] at h
    rw [← (Prod.mk.inj h).2]
    exact ⟨rfl, begins_dropWhile _ _⟩
  | false =>
    have hnone : (lexeme c cs).1.name? = none := by
      fun_cases lexeme c cs <;> grind [name?_longer, name?_character, name?_number, Kind.name?]
    rw [hnone] at hname
    cases hname

/-! ## §2. Writing other names -/

/-- The word written for a token. -/
def respelled (ρ : String → String) (k : Kind) (word : Cursor) : Cursor :=
  match k with
  | .identifier x => (ρ x).toList
  | _ => word

/-- The text from a place on, with other names. -/
def renamedFrom (ρ : String → String) (p : Place) : Cursor :=
  if _h : (scan p).1.kind = .endOfFile then p.rest
  else p.gap ++ (respelled ρ (scan p).1.kind p.word ++ renamedFrom ρ (scan p).2)
termination_by p.rest.length
decreasing_by exact length_scan_lt _h

theorem renamedFrom_of_endOfFile {ρ : String → String} (h : (scan p).1.kind = .endOfFile) :
    renamedFrom ρ p = p.rest := by
  rw [renamedFrom, dif_pos h]

theorem renamedFrom_of_ne {ρ : String → String} (h : (scan p).1.kind ≠ .endOfFile) :
    renamedFrom ρ p =
      p.gap ++ (respelled ρ (scan p).1.kind p.word ++ renamedFrom ρ (scan p).2) := by
  rw [renamedFrom, dif_neg h]

/-! ## §3. Scanning what was written -/

/-- A name starts as names do. -/
theorem isNameStart_of_isName (h : isName x = true) :
    ∃ c cs, x.toList = c :: cs ∧ isNameStart c = true := by
  unfold isName at h
  split at h
  · cases h
  · rename_i c cs hcs
    simp only [Bool.and_eq_true] at h
    exact ⟨c, cs, hcs, h.1.1⟩

variable {ρ : String → String} {k : Kind} {word rest : Cursor}

/-- Another name is scanned in the place of a name. -/
theorem Spelled.renamed (h : Spelled k word rest) (hvalid : k.isValid = true)
    (hname : ∀ x, k = .identifier x → isName (ρ x) = true) {rest' : Cursor}
    (hend : EndsAlike rest rest') : Spelled (k.renamed ρ) (respelled ρ k word) rest' := by
  cases k with
  | identifier x =>
    cases h with
    | intro _ hscanned =>
      have hrest := (name_of_lexeme hscanned).2
      exact spelled_name (hname x rfl) (hend.begins splits_isNameChar hrest)
  | _ => exact h.splice hvalid hend

/-- What is written for a token may stand where the token did. -/
theorem Spelled.endsAlike (h : Spelled k word rest)
    (hname : ∀ x, k = .identifier x → isName (ρ x) = true) (rest' : Cursor) :
    EndsAlike (word ++ rest) (respelled ρ k word ++ rest') := by
  cases h with
  | intro _ hscanned =>
    cases k with
    | identifier x =>
      obtain ⟨d, ds, hd, hstart⟩ := isNameStart_of_isName (hname x rfl)
      rw [respelled, hd]
      exact .word _ _ (name_of_lexeme hscanned).1 hstart
    | _ => exact .same _ _ _

/-- The tokens are valid, and what becomes of their names are names. -/
def Renames (ρ : String → String) (ts : List Token) : Prop :=
  ∀ t ∈ ts, t.kind.isValid = true ∧ ∀ x, t.kind = .identifier x → isName (ρ x) = true

/-- What stands before a renamed text ends as before. -/
theorem endsAlike_renamedFrom (h : Renames ρ (tokensFrom p).list) :
    EndsAlike p.rest (renamedFrom ρ p) := by
  by_cases hend : (scan p).1.kind = .endOfFile
  · rw [renamedFrom_of_endOfFile hend]
    exact .rfl
  · rw [tokensFrom_of_ne hend] at h
    obtain ⟨hvalid, hname⟩ := h _ List.mem_cons_self
    obtain ⟨_, hword, hrest⟩ := spelled_of_scan hvalid hend
    rw [renamedFrom_of_ne hend, hrest]
    exact (hword.endsAlike hname _).append p.gap

/-- **The tokens of a text with other names are those of the text, with other
names.** -/
theorem tokensFrom_renamedFrom (h : Renames ρ (tokensFrom p).list) :
    tokensFrom ⟨renamedFrom ρ p, p.line⟩ =
      ⟨(tokensFrom p).list.map fun t => ⟨t.kind.renamed ρ, t.line⟩, (tokensFrom p).endLine⟩ := by
  induction p using tokensFrom.induct with
  | case1 p t after hscan ht =>
    have hend : (scan p).1.kind = .endOfFile := by rw [hscan]; exact ht
    rw [renamedFrom_of_endOfFile hend, tokensFrom_of_endOfFile hend]
    rfl
  | case2 p t after hscan ht _ ih =>
    have hne : (scan p).1.kind ≠ .endOfFile := by rw [hscan]; exact ht
    have hafter : (scan p).2 = after := by rw [hscan]
    rw [tokensFrom_of_ne hne] at h ⊢
    obtain ⟨⟨hvalid, hname⟩, hlater⟩ := List.forall_mem_cons.1 h
    obtain ⟨hgap, hword, _⟩ := spelled_of_scan hvalid hne
    obtain ⟨htoken, hplace⟩ := scan_eq_of_valid hvalid hne
    have hword' := hword.renamed hvalid hname (endsAlike_renamedFrom hlater)
    have hkind : (scan p).1.kind.renamed ρ ≠ .endOfFile := Kind.renamed_ne hne
    have hline : p.line + p.gap.count '\n' = (scan p).2.line := by rw [hplace]
    rw [← hafter] at ih
    rw [renamedFrom_of_ne hne, tokensFrom_spelled hgap hword' hkind, hline, ih hlater, hplace,
      List.map_cons]
    rw [htoken]

/-- The text with other names. -/
def renamed (ρ : String → String) (text : String) : String :=
  String.ofList (renamedFrom ρ (.start text))

end Scan

end MiniC
