/-
  MiniC.Proofs.Scanning.Lines

  **Lines are counted by newlines, as long as the text is well formed.**

  A token starts at the first character that is no blank and in no closed
  comment (`fromToken`); a comment that is not closed is a token itself.  The
  line of a token, and the newlines from its first character on, together make
  the lines of the text (`line_scan`).  Valid tokens hold no newline, so they
  keep this sum, and the line of a token after valid ones is one more than the
  newlines before it (`line_of_valid`).
-/
import MiniC.Proofs.Scanning.Entries

namespace MiniC

/-- The token is a word of the language, or the end of the text. -/
def Kind.isValid : Kind → Bool
  | .invalid _ => false
  | _ => true

namespace Scan

open Text (Cursor)

variable {cs rest : Cursor}

/-! ## §1. Where a token starts -/

/-- What follows the end of a block comment, if it has one. -/
def afterComment? : Cursor → Option Cursor
  | [] => none
  | '*' :: '/' :: cs => some cs
  | _ :: cs => afterComment? cs

/-- What follows a comment is an end of the text. -/
theorem suffix_of_afterComment? (h : afterComment? cs = some rest) : rest <:+ cs := by
  fun_induction afterComment? cs with
  | case1 => cases h
  | case2 cs =>
    cases h
    exact ⟨['*', '/'], rfl⟩
  | case3 c cs _ ih => exact (ih h).trans (List.suffix_cons c cs)

/-- The text from its first token on: without the blanks and the comments
before it.  A comment that is not closed is a token. -/
def fromToken : Cursor → Cursor
  | [] => []
  | '/' :: '/' :: cs => fromToken (cs.dropWhile (· ≠ '\n'))
  | '/' :: '*' :: cs =>
    match _hclosed : afterComment? cs with
    | some rest => fromToken rest
    | none => '/' :: '*' :: cs
  | c :: cs => if c = '\n' || isSpace c then fromToken cs else c :: cs
termination_by cs => cs.length
decreasing_by
  · have := length_dropWhile_le (· ≠ '\n') cs
    simp only [List.length_cons]
    omega
  · have := (suffix_of_afterComment? _hclosed).length_le
    simp only [List.length_cons]
    omega
  · simp

/-- The characters of a text before the first one of the token that has `n`
tokens before it. -/
def before (text : String) (n : Nat) : List Char :=
  let chars := Cursor.ofString text
  chars.take (chars.length - (fromToken ((Place.start text).beyond n).rest).length)

/-- What starts with a token is an end of the text. -/
theorem suffix_fromToken (cs : Cursor) : fromToken cs <:+ cs := by
  fun_induction fromToken cs with
  | case1 => exact List.suffix_rfl
  | case2 cs ih =>
    have hcs : cs <:+ '/' :: '/' :: cs := ⟨['/', '/'], rfl⟩
    exact (ih.trans (List.dropWhile_suffix _)).trans hcs
  | case3 cs rest h ih =>
    have hcs : cs <:+ '/' :: '*' :: cs := ⟨['/', '*'], rfl⟩
    exact (ih.trans (suffix_of_afterComment? h)).trans hcs
  | case4 => exact List.suffix_rfl
  | case5 c cs _ _ _ ih => exact ih.trans (List.suffix_cons c cs)
  | case6 => exact List.suffix_rfl

/-! ## §2. Blanks and comments -/

/-- Characters that are no newlines can be left out. -/
theorem count_dropWhile {p : Char → Bool} (hp : p '\n' = false) (cs : Cursor) :
    (cs.dropWhile p).count '\n' = cs.count '\n' := by
  induction cs with
  | nil => rfl
  | cons c cs ih =>
    by_cases hc : p c = true
    · have hne : c ≠ '\n' := by
        rintro rfl
        rw [hp] at hc
        cases hc
      rw [List.dropWhile_cons_of_pos hc, ih, List.count_cons_of_ne hne]
    · rw [List.dropWhile_cons_of_neg hc]

/-- A line comment ends before the newline. -/
theorem skip_lineComment (cs : Cursor) (line : Nat) :
    skip .lineComment cs line = skip .nothing (cs.dropWhile (· ≠ '\n')) line := by
  induction cs with
  | nil => rfl
  | cons c cs ih =>
    by_cases hc : c = '\n'
    · subst hc
      rfl
    · have hdrop : (c :: cs).dropWhile (· ≠ '\n') = cs.dropWhile (· ≠ '\n') :=
        List.dropWhile_cons_of_pos (decide_eq_true hc)
      rw [hdrop, ← ih, skip]
      exact hc

/-- A block comment ends with its end mark, and if it has none the text ends
in it. -/
theorem skip_blockComment (start : Nat) (cs : Cursor) (line : Nat) :
    match afterComment? cs with
    | some rest => ∃ line', line' + rest.count '\n' = line + cs.count '\n' ∧
        skip (.blockComment start) cs line = skip .nothing rest line'
    | none => (skip (.blockComment start) cs line).unclosed = some start := by
  fun_induction afterComment? cs generalizing line with
  | case1 => rfl
  | case2 cs => exact ⟨line, by simp, rfl⟩
  | case3 c cs hend ih =>
    by_cases hc : c = '\n'
    · subst hc
      have ih := ih (line + 1)
      split at ih
      · obtain ⟨line', hline, hskip⟩ := ih
        refine ⟨line', ?_, hskip⟩
        rw [List.count_cons_self]
        omega
      · exact ih
    · have hskip : skip (.blockComment start) (c :: cs) line =
          skip (.blockComment start) cs line := by
        rw [skip]
        · exact hend
        · exact hc
      rw [hskip, List.count_cons_of_ne hc]
      exact ih line

/-- A newline counts, and a blank is passed over. -/
theorem skip_blank {c : Char} (hc : (c = '\n' || isSpace c) = true) (cs : Cursor) (line : Nat) :
    ∃ line', line' + cs.count '\n' = line + (c :: cs).count '\n' ∧
      skip .nothing (c :: cs) line = skip .nothing cs line' := by
  by_cases hn : c = '\n'
  · subst hn
    refine ⟨line + 1, ?_, rfl⟩
    rw [List.count_cons_self]
    omega
  · have hspace : isSpace c = true := by simpa [hn] using hc
    have hslash : c ≠ '/' := by
      rintro rfl
      cases hspace
    refine ⟨line, by rw [List.count_cons_of_ne hn], ?_⟩
    rw [skip, if_pos hspace]
    · exact hn
    · exact fun _ h => absurd h hslash
    · exact fun _ h => absurd h hslash

/-- **Blanks and comments are skipped up to the first token.**  If that is a
comment that is not closed, the line found is where it starts. -/
theorem skip_nothing (cs : Cursor) (line : Nat) :
    (skip .nothing cs line).unclosed = none ∧
        (skip .nothing cs line).after.rest = fromToken cs ∨
      ∃ start, (skip .nothing cs line).unclosed = some start ∧
        start + (fromToken cs).count '\n' = line + cs.count '\n' := by
  fun_induction fromToken cs generalizing line with
  | case1 => exact .inl ⟨rfl, rfl⟩
  | case2 cs ih =>
    have hskip : skip .nothing ('/' :: '/' :: cs) line =
        skip .nothing (cs.dropWhile (· ≠ '\n')) line := skip_lineComment cs line
    have hcount : ('/' :: '/' :: cs).count '\n' = (cs.dropWhile (· ≠ '\n')).count '\n' := by
      rw [count_dropWhile rfl]
      rfl
    rw [hskip, hcount]
    exact ih line
  | case3 cs rest h ih =>
    have hcomment := skip_blockComment line cs line
    rw [h] at hcomment
    obtain ⟨line', hline, hskip⟩ := hcomment
    have hskip : skip .nothing ('/' :: '*' :: cs) line = skip .nothing rest line' := hskip
    have hcount : ('/' :: '*' :: cs).count '\n' = cs.count '\n' := rfl
    rw [hskip, hcount, ← hline]
    exact ih line'
  | case4 cs h =>
    -- skipping runs to the end of the text here, but the token starts at the comment
    have hcomment := skip_blockComment line cs line
    rw [h] at hcomment
    exact .inr ⟨line, hcomment, rfl⟩
  | case5 c cs _ _ hc ih =>
    obtain ⟨line', hline, hskip⟩ := skip_blank hc cs line
    rw [hskip, ← hline]
    exact ih line'
  | case6 c cs hline hblock hc =>
    have hn : c ≠ '\n' := by
      rintro rfl
      exact hc rfl
    have hspace : ¬ isSpace c = true := fun h => hc (by rw [h, Bool.or_true])
    have hskip : skip .nothing (c :: cs) line = ⟨⟨c :: cs, line⟩, none⟩ := by
      rw [skip, if_neg hspace]
      · exact hn
      · exact hline
      · exact hblock
    rw [hskip]
    exact .inl ⟨rfl, rfl⟩

/-- The line on which the text ends, if the newlines to come are all
counted. -/
def Place.lastLine (p : Place) : Nat := p.line + p.rest.count '\n'

/-- Blanks and comments are passed over with their newlines counted. -/
theorem lastLine_skip (inside : Inside) (cs : Cursor) (line : Nat) :
    (skip inside cs line).after.lastLine = line + cs.count '\n' := by
  fun_induction skip inside cs line <;> grind [Place.lastLine]

/-- Blanks and comments end before something else than a newline. -/
theorem ne_newline_of_skip {inside : Inside} {line : Nat} {c : Char}
    (h : (skip inside cs line).after.rest = c :: rest) : c ≠ '\n' := by
  fun_induction skip inside cs line <;> grind

theorem suffix_skip (inside : Inside) (cs : Cursor) (line : Nat) :
    (skip inside cs line).after.rest <:+ cs := by
  fun_induction skip inside cs line <;> grind [List.suffix_cons_iff]

/-! ## §3. Valid tokens -/

theorem count_eat? {c : Char} (hc : c ≠ '\n') (h : cs.eat? c = some rest) :
    rest.count '\n' = cs.count '\n' := by
  rw [Cursor.eq_cons_of_eat? h, List.count_cons_of_ne hc]

/-- A sign of one or two characters holds no line break. -/
theorem count_longer {c : Char} (hc : c ≠ '\n') (long short : Punct) (cs : Cursor) :
    (longer c long short cs).2.count '\n' = cs.count '\n' := by
  unfold longer
  split
  · exact count_eat? hc ‹_›
  · rfl

/-- A closing quote holds no line break. -/
theorem count_closeQuote (c : Char) (cs : Cursor) :
    (closeQuote c cs).2.count '\n' = cs.count '\n' := by
  have hquote : '\'' ≠ '\n' := by decide
  unfold closeQuote
  split
  · exact count_eat? hquote ‹_›
  · rfl

/-- An escape that is right holds no line break. -/
theorem count_escape (h : (escape cs).1.isValid = true) :
    (escape cs).2.count '\n' = cs.count '\n' := by
  revert h
  fun_cases escape cs with
  | case1 => exact fun _ => rfl
  | case2 cs => exact fun _ => count_closeQuote _ cs
  | case3 cs => exact fun _ => count_closeQuote _ cs
  | case4 cs => exact fun _ => count_closeQuote _ cs
  | case5 cs => exact fun _ => count_closeQuote _ cs
  | case6 cs => exact fun h => absurd h Bool.false_ne_true
  | case7 c cs => exact fun h => absurd h Bool.false_ne_true

/-- A character literal with a newline in it is not valid. -/
theorem count_character (h : (character cs).1.isValid = true) :
    (character cs).2.count '\n' = cs.count '\n' := by
  revert h
  fun_cases character cs with
  | case1 => exact fun _ => rfl
  | case2 cs => exact count_escape
  | case3 cs => exact fun h => absurd h Bool.false_ne_true
  | case4 cs => exact fun h => absurd h Bool.false_ne_true
  | case5 c cs _ hc _ =>
    -- valid or not: only the quote is eaten after a plain character
    exact fun _ => (count_closeQuote c cs).trans (List.count_cons_of_ne hc).symm

/-- **No newline stands in a valid token.** -/
theorem count_lexeme {c : Char} (h : (lexeme c cs).1.isValid = true) :
    (lexeme c cs).2.count '\n' = cs.count '\n' := by
  have hnumber : isNumberChar '\n' = false := rfl
  have hname : isNameChar '\n' = false := rfl
  revert h
  fun_cases lexeme c cs <;> grind [count_longer, count_character, count_dropWhile]

/-- **A valid token keeps count.** -/
theorem lastLine_scan {p : Place} (h : (scan p).1.kind.isValid = true) :
    (scan p).2.lastLine = p.lastLine := by
  have hskip := lastLine_skip .nothing p.rest p.line
  have hscan := scanned p
  generalize (scan p).1 = t at h hscan
  generalize (scan p).2 = q at hscan ⊢
  cases hscan with
  | comment _ => exact absurd h Bool.false_ne_true
  | ended _ _ => exact hskip
  | @lexeme c cs hclosed hrest =>
    -- the first character is no newline, and a valid token has none after it
    rw [Place.lastLine, hrest, List.count_cons_of_ne (ne_newline_of_skip hrest)] at hskip
    show _ + (Scan.lexeme c cs).2.count '\n' = _
    rw [count_lexeme h]
    exact hskip

/-- **A token stands on its line**: with the newlines from its first character
on, that makes the last line. -/
theorem line_scan (p : Place) :
    (scan p).1.line + (fromToken p.rest).count '\n' = p.lastLine := by
  have hskip := lastLine_skip .nothing p.rest p.line
  have hscan := scanned p
  generalize (scan p).1 = t at hscan ⊢
  generalize (scan p).2 = q at hscan
  rcases skip_nothing p.rest p.line with ⟨hclosed, hrest⟩ | ⟨start, hstart, hcount⟩
  · rw [Place.lastLine, hrest] at hskip
    cases hscan with
    | comment h =>
      rw [hclosed] at h
      cases h
    | ended _ _ => exact hskip
    | lexeme _ _ => exact hskip
  · cases hscan with
    | comment h =>
      -- the token has the line where the comment starts, not the one where skipping ended
      rw [hstart] at h
      cases h
      exact hcount
    | ended h _ =>
      rw [hstart] at h
      cases h
    | lexeme h _ =>
      rw [hstart] at h
      cases h

/-! ## §4. The text before a token -/

/-- What follows a sign is an end of the text. -/
theorem suffix_longer (c : Char) (long short : Punct) (cs : Cursor) :
    (longer c long short cs).2 <:+ cs := by
  unfold longer
  split
  · exact Cursor.eq_cons_of_eat? ‹_› ▸ List.suffix_cons c _
  · exact List.suffix_rfl

theorem suffix_closeQuote (c : Char) (cs : Cursor) : (closeQuote c cs).2 <:+ cs := by
  unfold closeQuote
  split
  · exact Cursor.eq_cons_of_eat? ‹_› ▸ List.suffix_cons _ _
  · exact List.suffix_rfl

theorem suffix_escape (cs : Cursor) : (escape cs).2 <:+ cs := by
  fun_cases escape cs <;> grind [suffix_closeQuote]

theorem suffix_character (cs : Cursor) : (character cs).2 <:+ cs := by
  fun_cases character cs <;> grind [suffix_closeQuote, suffix_escape]

theorem suffix_lexeme (c : Char) (cs : Cursor) : (lexeme c cs).2 <:+ cs := by
  fun_cases lexeme c cs <;>
    grind [suffix_longer, suffix_character, List.dropWhile_suffix]

/-- What follows a token is the end of what there was. -/
theorem suffix_scan (p : Place) : (scan p).2.rest <:+ p.rest := by
  have hskip := suffix_skip .nothing p.rest p.line
  have hscan := scanned p
  generalize (scan p).1 = t at hscan
  generalize (scan p).2 = q at hscan ⊢
  cases hscan with
  | comment _ => exact hskip
  | ended _ _ => exact hskip
  | @lexeme c cs _ hrest =>
    rw [hrest] at hskip
    exact (suffix_lexeme c cs).trans ((List.suffix_cons c cs).trans hskip)

theorem suffix_beyond (p : Place) (n : Nat) : (p.beyond n).rest <:+ p.rest := by
  induction n generalizing p with
  | zero => exact List.suffix_rfl
  | succ n ih => exact (ih (scan p).2).trans (suffix_scan p)

/-- Good tokens do not change the number of lines. -/
theorem lastLine_beyond {p : Place} {n : Nat} (h : ∀ j < n, (p.entry j).kind.isValid = true) :
    (p.beyond n).lastLine = p.lastLine := by
  induction n with
  | zero => rfl
  | succ n ih =>
    rw [Place.beyond_succ, lastLine_scan (h n (Nat.lt_succ_self n))]
    exact ih fun j hj => h j (Nat.lt_succ_of_lt hj)

/-- The text is what stands before a token, and the text from there on. -/
theorem before_append (text : String) (n : Nat) :
    before text n ++ fromToken ((Place.start text).beyond n).rest = Cursor.ofString text := by
  have hsuffix : fromToken ((Place.start text).beyond n).rest <:+ Cursor.ofString text :=
    (suffix_fromToken _).trans (suffix_beyond (.start text) n)
  obtain ⟨front, hfront⟩ := hsuffix
  rw [before, ← hfront]
  simp

-- a comment that is not closed starts at its mark
example : before "a\n /* b */ /* c\n" 1 = "a\n /* b */ ".toList := by cbv

/-- **After valid tokens, a token stands on the line after the newlines before
it.** -/
theorem line_of_valid {text : String} {n : Nat}
    (h : ∀ j < n, ((Place.start text).entry j).kind.isValid = true) :
    ((Place.start text).entry n).line = 1 + (before text n).count '\n' := by
  have hline : ((Place.start text).entry n).line +
      (fromToken ((Place.start text).beyond n).rest).count '\n' =
        1 + (Cursor.ofString text).count '\n' :=
    (line_scan ((Place.start text).beyond n)).trans (lastLine_beyond h)
  rw [← before_append text n, List.count_append] at hline
  omega

/-! ## §5. Tokens stand in the text -/

/-- Going on from a token, no line is further up, and none beyond the last. -/
theorem lines_scan (p : Place) :
    (p.line ≤ (scan p).1.line ∧ (scan p).1.line ≤ p.lastLine) ∧
      p.line ≤ (scan p).2.line ∧ (scan p).2.lastLine ≤ p.lastLine := by
  have htoken := (suffix_fromToken p.rest).count_le '\n'
  have hline := line_scan p
  have hskip := lastLine_skip .nothing p.rest p.line
  have hafter := (suffix_skip .nothing p.rest p.line).count_le '\n'
  have hscan := scanned p
  generalize (scan p).1 = t at hline hscan ⊢
  generalize (scan p).2 = q at hscan ⊢
  unfold Place.lastLine at hline hskip ⊢
  refine ⟨by omega, ?_⟩
  cases hscan with
  | comment _ => omega
  | ended _ _ => omega
  | @lexeme c cs _ hrest =>
    have hlexeme := ((suffix_lexeme c cs).trans (List.suffix_cons c cs)).count_le '\n'
    rw [hrest] at hskip hafter
    dsimp only
    omega

/-- **Every token stands on a line of the text**, and so does the end. -/
theorem lines_tokensFrom (p : Place) :
    ∀ t ∈ (tokensFrom p).withEnd, p.line ≤ t.line ∧ t.line ≤ p.lastLine := by
  induction p using tokensFrom.induct with
  | case1 p t after hscan ht =>
    have hend : (scan p).1.kind = .endOfFile := by rw [hscan]; exact ht
    rw [tokensFrom_of_endOfFile hend]
    exact List.forall_mem_singleton.2 (lines_scan p).1
  | case2 p t after hscan ht _ ih =>
    have hne : (scan p).1.kind ≠ .endOfFile := by rw [hscan]; exact ht
    have hlines := lines_scan p
    rw [tokensFrom_of_ne hne]
    rw [hscan] at hlines ⊢
    obtain ⟨hfirst, hup, hdown⟩ := hlines
    refine List.forall_mem_cons.2 ⟨hfirst, fun t ht => ?_⟩
    obtain ⟨hle, hge⟩ := ih t ht
    exact ⟨Nat.le_trans hup hle, Nat.le_trans hge hdown⟩

end Scan

end MiniC
