/-
  MiniC.Proofs.Scanning.Newlines

  **Every newline is counted but those that break off a character literal.**

  A quote with a newline after it, or with a backslash and a newline, is an
  invalid token that takes the newline in (`startsBroken`).  All other tokens,
  invalid ones included, leave every newline to the blanks and comments, which
  count it.  So a scan keeps the last line of the text, less one for a literal
  that is broken off (`lastLine_scan_add`), and the line of a token falls short
  of the newlines before it by the number of such literals before it.
-/
import MiniC.Proofs.Scanning.Lines

namespace MiniC

namespace Scan

open Text (Cursor)

/-! ## §1. The newlines that a token takes in -/

/-- The text starts with a character literal that a newline breaks off, as its
character or after its backslash. -/
def startsBroken : Cursor → Bool
  | '\'' :: '\n' :: _ => true
  | '\'' :: '\\' :: '\n' :: _ => true
  | _ => false

/-- Only a quote starts a literal with a line break in it. -/
theorem startsBroken_of_ne {c : Char} (hc : c ≠ '\'') (cs : Cursor) :
    startsBroken (c :: cs) = false := by
  unfold startsBroken
  split
  · exact absurd (List.cons.inj ‹_›).1 hc
  · exact absurd (List.cons.inj ‹_›).1 hc
  · rfl

/-- An escape swallows a line break exactly if it is broken so. -/
theorem count_escape_add (cs : Cursor) :
    (escape cs).2.count '\n' + (startsBroken ('\'' :: '\\' :: cs)).toNat = cs.count '\n' := by
  fun_cases escape cs with
  | case1 => rfl
  | case2 cs => exact count_closeQuote _ cs
  | case3 cs => exact count_closeQuote _ cs
  | case4 cs => exact count_closeQuote _ cs
  | case5 cs => exact count_closeQuote _ cs
  | case6 cs => exact List.count_cons_self.symm
  | case7 c cs _ _ _ _ hc =>
    -- an escape that stands for nothing takes in its one character
    have hbroken : startsBroken ('\'' :: '\\' :: c :: cs) = false := by
      unfold startsBroken
      grind
    rw [hbroken, List.count_cons_of_ne hc]
    rfl

/-- A quoted character swallows a break exactly if it is broken. -/
theorem count_character_add (cs : Cursor) :
    (character cs).2.count '\n' + (startsBroken ('\'' :: cs)).toNat = cs.count '\n' := by
  fun_cases character cs with
  | case1 => rfl
  | case2 cs => exact count_escape_add cs
  | case3 cs => exact List.count_cons_self.symm
  | case4 cs => rfl
  | case5 c cs hescape hc _ =>
    have hbroken : startsBroken ('\'' :: c :: cs) = false := by
      unfold startsBroken
      grind
    rw [hbroken, List.count_cons_of_ne hc]
    exact count_closeQuote c cs

/-- **A token takes in no newline, unless it is a character literal that is
broken off: then it takes in one.** -/
theorem count_lexeme_add (c : Char) (cs : Cursor) :
    (lexeme c cs).2.count '\n' + (startsBroken (c :: cs)).toNat = cs.count '\n' := by
  by_cases hc : c = '\''
  · subst hc
    exact count_character_add cs
  · have hnumber : isNumberChar '\n' = false := rfl
    have hname : isNameChar '\n' = false := rfl
    rw [startsBroken_of_ne hc]
    show (lexeme c cs).2.count '\n' = _
    fun_cases lexeme c cs <;> grind [count_longer, count_dropWhile]

/-! ## §2. From token to token -/

/-- Where blanks and comments end, nothing is skipped. -/
theorem skip_token {c : Char} {cs : Cursor} (hline : ∀ rest, c = '/' → cs = '/' :: rest → False)
    (hblock : ∀ rest, c = '/' → cs = '*' :: rest → False)
    (hc : ¬ (c = '\n' || isSpace c) = true) (line : Nat) :
    skip .nothing (c :: cs) line = ⟨⟨c :: cs, line⟩, none⟩ := by
  have hn : c ≠ '\n' := by
    rintro rfl
    exact hc rfl
  have hspace : ¬ isSpace c = true := fun h => hc (by rw [h, Bool.or_true])
  rw [skip, if_neg hspace]
  · exact hn
  · exact hline
  · exact hblock

/-- A comment that is not closed is no character literal. -/
theorem startsBroken_of_unclosed {cs : Cursor} {line start : Nat}
    (h : (skip .nothing cs line).unclosed = some start) :
    startsBroken (fromToken cs) = false := by
  fun_induction fromToken cs generalizing line with
  | case1 => rfl
  | case2 cs ih =>
    have hskip : skip .nothing ('/' :: '/' :: cs) line =
        skip .nothing (cs.dropWhile (· ≠ '\n')) line := skip_lineComment cs line
    exact ih (hskip ▸ h)
  | case3 cs rest hclosed ih =>
    have hcomment := skip_blockComment line cs line
    rw [hclosed] at hcomment
    obtain ⟨line', _, hskip⟩ := hcomment
    have hskip : skip .nothing ('/' :: '*' :: cs) line = skip .nothing rest line' := hskip
    exact ih (hskip ▸ h)
  | case4 cs _ => rfl
  | case5 c cs _ _ hc ih =>
    obtain ⟨line', _, hskip⟩ := skip_blank hc cs line
    exact ih (hskip ▸ h)
  | case6 c cs hline hblock hc =>
    -- here skipping stops at once, at no comment
    rw [skip_token hline hblock hc line] at h
    cases h

/-- **A scan keeps the last line of the text**, less one for a character
literal that is broken off. -/
theorem lastLine_scan_add (p : Place) :
    (scan p).2.lastLine + (startsBroken (fromToken p.rest)).toNat = p.lastLine := by
  have hskip := lastLine_skip .nothing p.rest p.line
  have hscan := scanned p
  generalize (scan p).1 = t at hscan
  generalize (scan p).2 = q at hscan ⊢
  rcases skip_nothing p.rest p.line with ⟨hclosed, hrest⟩ | ⟨start, hstart, _⟩
  · cases hscan with
    | comment h =>
      rw [hclosed] at h
      cases h
    | ended _ hnil =>
      rw [← hrest, hnil]
      exact hskip
    | @lexeme c cs _ hcons =>
      -- the first character is no newline, and what the token takes in after it is known
      rw [Place.lastLine, hcons, List.count_cons_of_ne (ne_newline_of_skip hcons)] at hskip
      rw [← hrest, hcons]
      have hcount := count_lexeme_add c cs
      unfold Place.lastLine
      dsimp only
      omega
  · rw [startsBroken_of_unclosed hstart]
    cases hscan with
    | comment _ => exact hskip
    | ended h _ =>
      rw [hstart] at h
      cases h
    | lexeme h _ =>
      rw [hstart] at h
      cases h

/-! ## §3. The line of every token -/

/-- How many of the first `n` tokens of a text are character literals that a
newline breaks off. -/
def brokenBefore (text : String) (n : Nat) : Nat :=
  (List.range n).countP fun j => startsBroken (fromToken ((Place.start text).beyond j).rest)

/-- One more token adds its own break. -/
theorem brokenBefore_succ (text : String) (n : Nat) :
    brokenBefore text (n + 1) =
      brokenBefore text n +
        (startsBroken (fromToken ((Place.start text).beyond n).rest)).toNat := by
  rw [brokenBefore, List.range_succ, List.countP_append, List.countP_singleton]
  cases startsBroken (fromToken ((Place.start text).beyond n).rest) <;> rfl

/-- After any number of tokens, the last line is short of what it was by the
literals that are broken off. -/
theorem lastLine_beyond_add (text : String) (n : Nat) :
    ((Place.start text).beyond n).lastLine + brokenBefore text n =
      (Place.start text).lastLine := by
  induction n with
  | zero => rfl
  | succ n ih =>
    have hstep := lastLine_scan_add ((Place.start text).beyond n)
    rw [Place.beyond_succ, brokenBefore_succ]
    omega

/-- **The line of a token is one more than the newlines before it that no
character literal takes in.**  It is so for every token of every text, the
invalid ones and the end of the text included. -/
theorem line_entry (text : String) (n : Nat) :
    ((Place.start text).entry n).line + brokenBefore text n =
      1 + (before text n).count '\n' := by
  have hline : ((Place.start text).entry n).line +
      (fromToken ((Place.start text).beyond n).rest).count '\n' =
        ((Place.start text).beyond n).lastLine := line_scan ((Place.start text).beyond n)
  have hlast : ((Place.start text).beyond n).lastLine + brokenBefore text n =
      1 + (Cursor.ofString text).count '\n' := lastLine_beyond_add text n
  rw [← before_append text n, List.count_append] at hlast
  omega

/-- After a quote that a newline breaks off, the next token has the line of the
quote. -/
theorem line_after_broken :
    (before "'\n;" 1).count '\n' = 1 ∧ ((Place.start "'\n;").entry 1).line = 1 := by
  decide +kernel

end Scan

end MiniC
