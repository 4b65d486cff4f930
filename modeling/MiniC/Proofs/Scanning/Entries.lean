/-
  MiniC.Proofs.Scanning.Entries

  The tokens of a text, by their number.

  Scanning again and again from a place gives a token for every number
  (`Place.entry`).  Up to the end of the text these are the tokens of the text,
  and from there on each is the end of the text once more (`getD_withEnd`).
-/
import MiniC.Token.Scan

namespace MiniC.Scan

open Text (Cursor)

variable {p : Place} {n : Nat}

/-! ## §1. What a scan gives -/

/-- The token scanned at a place, and the place after it. -/
inductive Scanned (p : Place) : Token → Place → Prop where
  /-- A comment that is not closed takes all there is. -/
  | comment {start : Nat} (h : (skip .nothing p.rest p.line).unclosed = some start) :
      Scanned p ⟨.invalid .unterminatedComment, start⟩ (skip .nothing p.rest p.line).after
  /-- Blanks and comments take all there is. -/
  | ended (h : (skip .nothing p.rest p.line).unclosed = none)
      (hrest : (skip .nothing p.rest p.line).after.rest = []) :
      Scanned p ⟨.endOfFile, (skip .nothing p.rest p.line).after.line⟩
        (skip .nothing p.rest p.line).after
  /-- A token starts after blanks and comments. -/
  | lexeme {c : Char} {cs : Cursor} (h : (skip .nothing p.rest p.line).unclosed = none)
      (hrest : (skip .nothing p.rest p.line).after.rest = c :: cs) :
      Scanned p ⟨(lexeme c cs).1, (skip .nothing p.rest p.line).after.line⟩
        ⟨(lexeme c cs).2, (skip .nothing p.rest p.line).after.line⟩

/-- **A scan is one of the three.** -/
theorem scanned (p : Place) : Scanned p (scan p).1 (scan p).2 := by
  unfold scan
  dsimp only
  split
  · exact .comment ‹_›
  · split
    · exact .ended ‹_› ‹_›
    · exact .lexeme ‹_› ‹_›

theorem kind_longer_ne (c : Char) (long short : Punct) (cs : Cursor) :
    (longer c long short cs).1 ≠ .endOfFile := by
  unfold longer
  split <;> nofun

theorem kind_closeQuote_ne (c : Char) (cs : Cursor) : (closeQuote c cs).1 ≠ .endOfFile := by
  unfold closeQuote
  split <;> nofun

theorem kind_escape_ne (cs : Cursor) : (escape cs).1 ≠ .endOfFile := by
  fun_cases escape cs <;> grind [kind_closeQuote_ne]

theorem kind_character_ne (cs : Cursor) : (character cs).1 ≠ .endOfFile := by
  fun_cases character cs <;> grind [kind_closeQuote_ne, kind_escape_ne]

theorem number_ne (run : List Char) : number run ≠ .endOfFile := by
  unfold number
  generalize run.count '.' = points
  fun_cases numberWith points run <;> nofun

theorem word_ne (run : List Char) : word run ≠ .endOfFile := by
  fun_cases word run <;> nofun

/-- What starts with a character is not the end of the text. -/
theorem kind_lexeme_ne (c : Char) (cs : Cursor) : (lexeme c cs).1 ≠ .endOfFile := by
  fun_cases lexeme c cs <;> grind [kind_longer_ne, kind_character_ne, number_ne, word_ne]

/-! ## §2. The end of the text -/

/-- Where nothing is left stands the end of the text. -/
theorem scan_of_rest (h : p.rest = []) : scan p = (⟨.endOfFile, p.line⟩, p) := by
  obtain ⟨rest, line⟩ := p
  cases h
  rfl

/-- The end of the text is found where nothing is left, blanks and comments
apart. -/
theorem scan_of_endOfFile (h : (scan p).1.kind = .endOfFile) :
    (scan p).2.rest = [] ∧ (scan p).1.line = (scan p).2.line := by
  have hscan := scanned p
  generalize (scan p).1 = t at h hscan ⊢
  generalize (scan p).2 = q at hscan ⊢
  cases hscan with
  | comment _ => cases h
  | ended _ hrest => exact ⟨hrest, rfl⟩
  | lexeme _ _ => exact absurd h (kind_lexeme_ne _ _)

/-- Nothing follows the end of the text: it is found there again. -/
theorem scan_scan_of_endOfFile (h : (scan p).1.kind = .endOfFile) : scan (scan p).2 = scan p := by
  obtain ⟨hrest, hline⟩ := scan_of_endOfFile h
  rw [scan_of_rest hrest, ← hline, ← h]

/-! ## §3. Places and entries -/

/-- The place after `n` tokens. -/
def Place.beyond (p : Place) : Nat → Place
  | 0 => p
  | n + 1 => Place.beyond (scan p).2 n

/-- The token that has `n` tokens before it. -/
def Place.entry (p : Place) (n : Nat) : Token := (scan (p.beyond n)).1

/-- One token further on. -/
theorem Place.beyond_succ (p : Place) (n : Nat) : p.beyond (n + 1) = (scan (p.beyond n)).2 := by
  induction n generalizing p with
  | zero => rfl
  | succ n ih => exact ih (scan p).2

/-- The token at a place, and the place after it. -/
theorem Place.scan_beyond (p : Place) (n : Nat) :
    scan (p.beyond n) = (p.entry n, p.beyond (n + 1)) := by
  rw [Place.beyond_succ]
  rfl

/-- From the end of the text on, every token is the end of the text. -/
theorem Place.entry_of_endOfFile (h : (scan p).1.kind = .endOfFile) (n : Nat) :
    p.entry n = (scan p).1 := by
  induction n generalizing p with
  | zero => rfl
  | succ n ih =>
    have hagain := scan_scan_of_endOfFile h
    have hn := ih (p := (scan p).2) (by rw [hagain]; exact h)
    rw [hagain] at hn
    exact hn

/-- At the end there are no tokens. -/
theorem tokensFrom_of_endOfFile (h : (scan p).1.kind = .endOfFile) :
    tokensFrom p = ⟨[], (scan p).1.line⟩ := by
  rw [tokensFrom]
  split
  rename_i t after hscan
  have ht : t = (scan p).1 := by rw [hscan]
  rw [dif_pos (ht ▸ h), ht]

/-- Before the end there is a token, and what follows it. -/
theorem tokensFrom_of_ne (h : (scan p).1.kind ≠ .endOfFile) :
    tokensFrom p =
      ⟨(scan p).1 :: (tokensFrom (scan p).2).list, (tokensFrom (scan p).2).endLine⟩ := by
  rw [tokensFrom]
  split
  rename_i t after hscan
  have ht : t = (scan p).1 := by rw [hscan]
  have hafter : after = (scan p).2 := by rw [hscan]
  rw [← ht] at h
  rw [dif_neg h, ← ht, ← hafter]

/-- **The entries are the tokens of the text**, and past these the end of the
text. -/
theorem getD_withEnd (p : Place) (n : Nat) :
    (tokensFrom p).withEnd.getD n ⟨.endOfFile, (tokensFrom p).endLine⟩ = p.entry n := by
  induction p using tokensFrom.induct generalizing n with
  | case1 p t after hscan ht =>
    have hend : (scan p).1.kind = .endOfFile := by rw [hscan]; exact ht
    rw [tokensFrom_of_endOfFile hend, Place.entry_of_endOfFile hend]
    have hlast : (⟨.endOfFile, (scan p).1.line⟩ : Token) = (scan p).1 := by rw [← hend]
    cases n with
    | zero => exact hlast
    | succ n => exact hlast
  | case2 p t after hscan ht hlt ih =>
    have hne : (scan p).1.kind ≠ .endOfFile := by rw [hscan]; exact ht
    have hafter : (scan p).2 = after := by rw [hscan]
    rw [tokensFrom_of_ne hne, hafter]
    cases n with
    | zero => rfl
    | succ n =>
      rw [Place.entry, Place.beyond, hafter]
      exact ih n

/-- The tokens before the end of the text are the first entries. -/
theorem entry_of_getElem? {t : Token} (h : (tokensFrom p).list[n]? = some t) : p.entry n = t := by
  obtain ⟨hlt, ht⟩ := List.getElem?_eq_some_iff.1 h
  rw [← getD_withEnd, Tokens.withEnd, List.getD_eq_getElem?_getD, List.getElem?_append_left hlt, h]
  rfl

/-- Every token of a text is scanned at some place, and is not the end. -/
theorem exists_scan_of_mem {t : Token} (h : t ∈ (tokensFrom p).list) :
    ∃ q, (scan q).1 = t ∧ t.kind ≠ .endOfFile := by
  induction p using tokensFrom.induct with
  | case1 p t' after hscan ht =>
    have hend : (scan p).1.kind = .endOfFile := by rw [hscan]; exact ht
    rw [tokensFrom_of_endOfFile hend] at h
    cases h
  | case2 p t' after hscan ht _ ih =>
    have hne : (scan p).1.kind ≠ .endOfFile := by rw [hscan]; exact ht
    rw [tokensFrom_of_ne hne] at h
    rcases List.mem_cons.1 h with rfl | h
    · exact ⟨p, rfl, hne⟩
    · rw [hscan] at h
      exact ih h

/-- Past the tokens of the text stands its end, always the same. -/
theorem entry_of_le (h : (tokensFrom p).list.length ≤ n) :
    p.entry n = ⟨.endOfFile, (tokensFrom p).endLine⟩ := by
  rw [← getD_withEnd, Tokens.withEnd, List.getD_eq_getElem?_getD, List.getElem?_append_right h]
  cases n - (tokensFrom p).list.length with
  | zero => rfl
  | succ m => rfl

/-- Entries beyond the last token are the end of the text. -/
theorem kind_entry_eq_endOfFile :
    (p.entry n).kind = .endOfFile ↔ (tokensFrom p).list.length ≤ n := by
  constructor
  · intro h
    refine Nat.le_of_not_lt fun hlt => ?_
    rw [entry_of_getElem? (List.getElem?_eq_getElem hlt)] at h
    obtain ⟨_, _, hne⟩ := exists_scan_of_mem (List.getElem_mem hlt)
    exact hne h
  · intro h
    rw [entry_of_le h]

/-- Nothing is left once the end of the text was found. -/
theorem rest_beyond_length (p : Place) :
    (p.beyond ((tokensFrom p).list.length + 1)).rest = [] := by
  have hkind : (p.entry (tokensFrom p).list.length).kind = .endOfFile :=
    kind_entry_eq_endOfFile.2 (Nat.le_refl _)
  rw [Place.beyond_succ]
  exact (scan_of_endOfFile hkind).1

end MiniC.Scan
