/-
  MiniC.Proofs.Scanning.Lexemes

  **Scanning takes a text apart and leaves nothing out.**

  Each token takes a slice of the text: blanks and comments (`Filler`) and then
  the characters of the token.  Which characters make up a token of which kind
  depends on what follows, and is laid down case by case (`Lexes`): a word or a
  number goes on as long as it can, an operator is not the first part of a
  longer one, and text that is no word of the language is taken as well.

    • At every place there is such a slice (`exists_filler`, `exists_lexes`).
    • A slice that keeps the rules is the one that is scanned (`scan_lexes`).
    • So reading on to the end takes slice after slice, and together they are
      the text (`flatMap_slices`).
-/
import MiniC.Proofs.Scanning.Printing

namespace MiniC

open Text (Cursor)

namespace Scan

variable {c : Char} {run : List Char} {cs : Cursor}

/-! ## §1. The characters of a token -/

/-- What a run of digits and points stands for. -/
inductive Numeral : (run : List Char) → Kind → Prop where
  | integer {ds : List Char} (hds : ∀ c ∈ ds, Text.isDigit c = true)
      (hle : Text.digitsValue ds ≤ 2147483647) :
      Numeral ds (.integer (Int32.ofNat (Text.digitsValue ds)))
  | overflow {ds : List Char} (hds : ∀ c ∈ ds, Text.isDigit c = true)
      (hlt : 2147483647 < Text.digitsValue ds) : Numeral ds (.invalid .integerOverflow)
  | float {whole fraction : List Char} (hwhole : ∀ c ∈ whole, Text.isDigit c = true)
      (hfraction : ∀ c ∈ fraction, Text.isDigit c = true) :
      Numeral (whole ++ '.' :: fraction) (.float (Decimal.ofPointed whole fraction).toBinary32)
  | malformed {run : List Char} (hpoints : 2 ≤ run.count '.') :
      Numeral run (.invalid .malformedFloat)

/-- How a character is written between quotes. -/
inductive Shown : (word : Cursor) → (meant : Char) → Prop where
  | plain {c : Char} (hslash : c ≠ '\\') (hnewline : c ≠ '\n') (hquote : c ≠ '\'') : Shown [c] c
  | escape {c meant : Char} (h : (c, meant) ∈ escapes) : Shown ['\\', c] meant

/-- What starts with a quote, as far as it is taken for a character literal. -/
inductive Quoted : Kind → (word rest : Cursor) → Prop where
  | closed {word rest : Cursor} {c : Char} (h : Shown word c) :
      Quoted (.integer (Int32.ofNat c.toNat)) ('\'' :: (word ++ ['\''])) rest
  | unclosed {word rest : Cursor} {c : Char} (h : Shown word c)
      (hrest : begins (· = '\'') rest = false) :
      Quoted (.invalid .unterminatedChar) ('\'' :: word) rest
  | empty {rest : Cursor} : Quoted (.invalid .unterminatedChar) ['\'', '\''] rest
  /-- The line ends, with or without a backslash before. -/
  | newline {slash rest : Cursor} (hslash : slash = [] ∨ slash = ['\\']) :
      Quoted (.invalid .unterminatedChar) ('\'' :: (slash ++ ['\n'])) rest
  /-- The text ends, with or without a backslash before. -/
  | ended {slash : Cursor} (hslash : slash = [] ∨ slash = ['\\']) :
      Quoted (.invalid .unterminatedChar) ('\'' :: slash) []
  | unknown {c : Char} {rest : Cursor} (hnewline : c ≠ '\n')
      (hc : ∀ meant, (c, meant) ∉ escapes) :
      Quoted (.invalid (.invalidEscape c)) ['\'', '\\', c] rest

/-- The characters with which operators and character literals begin. -/
def signs : List Char :=
  [';', ',', '{', '}', '(', ')', '[', ']', '+', '-', '*', '/', '!', '&', '|', '=', '<', '>', '\'']

/-- **The word before `rest` is a token of the kind.**  Words and numbers are
the longest runs of their characters, and an operator does not go on with what
follows. -/
inductive Lexes : Kind → (word rest : Cursor) → Prop where
  | keyword (k : Keyword) {rest : Cursor} (hrest : begins isNameChar rest = false) :
      Lexes (.keyword k) k.spelling.toList rest
  | identifier {x : String} {rest : Cursor} (hx : isName x = true)
      (hrest : begins isNameChar rest = false) : Lexes (.identifier x) x.toList rest
  | number {k : Kind} {run rest : Cursor} (hfirst : begins Text.isDigit run = true)
      (hrun : ∀ c ∈ run, isNumberChar c = true) (hk : Numeral run k)
      (hrest : begins isNumberChar rest = false) : Lexes k run rest
  | punct (p : Punct) {rest : Cursor} (hrest : goesOn p.spelling.toList rest = false) :
      Lexes (.punct p) p.spelling.toList rest
  | quoted {k : Kind} {word rest : Cursor} (h : Quoted k word rest) : Lexes k word rest
  | unexpected {c : Char} {rest : Cursor} (hwhite : isWhite c = false)
      (hname : isNameChar c = false) (hsign : c ∉ signs) :
      Lexes (.invalid (.unexpectedChar c)) [c] rest
  /-- A block comment without an end mark takes all there is. -/
  | comment {body : Cursor} (hbody : ¬ ['*', '/'] <:+: body) :
      Lexes (.invalid .unterminatedComment) ('/' :: '*' :: body) []
  | ended : Lexes .endOfFile [] []

/-! ## §2. Every text starts with a token -/

theorem isDigit_of_isNumberChar (h : isNumberChar c = true) (hc : c ≠ '.') :
    Text.isDigit c = true := by
  rw [isNumberChar, decide_eq_false hc, Bool.or_false] at h
  exact h

/-- A run without a point is digits only. -/
theorem isDigit_of_mem (hrun : ∀ c ∈ run, isNumberChar c = true) (hpoint : '.' ∉ run) :
    ∀ c ∈ run, Text.isDigit c = true := by
  intro c hc
  refine isDigit_of_isNumberChar (hrun c hc) ?_
  rintro rfl
  exact hpoint hc

/-- A run with one point is digits, the point, and digits. -/
theorem exists_pointed (hrun : ∀ c ∈ run, isNumberChar c = true) (hcount : run.count '.' = 1) :
    ∃ whole fraction, run = whole ++ '.' :: fraction ∧ (∀ c ∈ whole, Text.isDigit c = true) ∧
      ∀ c ∈ fraction, Text.isDigit c = true := by
  have hmem : '.' ∈ run := List.count_pos_iff.1 (by omega)
  obtain ⟨whole, fraction, rfl, hwhole⟩ := List.eq_append_cons_of_mem hmem
  have hfraction : '.' ∉ fraction := by
    rw [List.count_append, List.count_cons_self] at hcount
    exact List.count_eq_zero.1 (by omega)
  refine ⟨whole, fraction, rfl, isDigit_of_mem (fun c hc => ?_) hwhole,
    isDigit_of_mem (fun c hc => ?_) hfraction⟩
  · exact hrun c (List.mem_append_left _ hc)
  · exact hrun c (List.mem_append_right _ (List.mem_cons_of_mem _ hc))

theorem number_overflow {ds : List Char} (h : ∀ c ∈ ds, Text.isDigit c = true)
    (hlt : 2147483647 < Text.digitsValue ds) : number ds = .invalid .integerOverflow := by
  rw [number, count_point h]
  exact if_neg (Nat.not_le_of_lt hlt)

/-- Two points make no number. -/
theorem number_malformed (h : 2 ≤ run.count '.') : number run = .invalid .malformedFloat := by
  unfold number numberWith
  split
  · omega
  · omega
  · rfl

/-- **A run of digits and points is a number**, or too much for one. -/
theorem numeral_number (hrun : ∀ c ∈ run, isNumberChar c = true) : Numeral run (number run) := by
  rcases hcount : run.count '.' with _ | _ | more
  · have hdigits := isDigit_of_mem hrun (List.count_eq_zero.1 hcount)
    by_cases hle : Text.digitsValue run ≤ 2147483647
    · rw [number_digits hdigits hle]
      exact .integer hdigits hle
    · have hlt := Nat.lt_of_not_le hle
      rw [number_overflow hdigits hlt]
      exact .overflow hdigits hlt
  · obtain ⟨whole, fraction, rfl, hwhole, hfraction⟩ := exists_pointed hrun hcount
    rw [number_pointed hwhole hfraction]
    exact .float hwhole hfraction
  · have hpoints : 2 ≤ run.count '.' := by omega
    rw [number_malformed hpoints]
    exact .malformed hpoints

/-- A numeral is read as what it is. -/
theorem Numeral.number_eq {k : Kind} (h : Numeral run k) : number run = k := by
  cases h with
  | integer hds hle => exact number_digits hds hle
  | overflow hds hlt => exact number_overflow hds hlt
  | float hwhole hfraction => exact number_pointed hwhole hfraction
  | malformed hpoints => exact number_malformed hpoints

/-- A word is a keyword or a name. -/
theorem lexes_word {rest : Cursor} (hc : isNameStart c = true)
    (hcs : ∀ d ∈ cs, isNameChar d = true) (hrest : begins isNameChar rest = false) :
    Lexes (word (c :: cs)) (c :: cs) rest := by
  have hlist : (String.ofList (c :: cs)).toList = c :: cs := String.toList_ofList
  -- both are runs of the same characters, and the list of keywords decides
  unfold word
  dsimp only
  split
  · rename_i k hk
    rw [← hlist, ← Keyword.spelling_of_ofSpelling? hk]
    exact .keyword k hrest
  · rename_i hnone
    have hname : isName (String.ofList (c :: cs)) = true := by
      rw [isName, hlist, hnone]
      dsimp only
      rw [hc, List.all_eq_true.2 hcs]
      rfl
    have hlexes := Lexes.identifier hname hrest
    rwa [hlist] at hlexes

/-- What was not eaten is not there. -/
theorem begins_of_eat? (h : Cursor.eat? c cs = none) : begins (· = c) cs = false := by
  cases cs with
  | nil => rfl
  | cons d ds =>
    refine decide_eq_false fun heq => ?_
    rw [Cursor.eat?, if_pos heq] at h
    cases h

/-- Of two operators with the same first character, the longer one is taken if
it is written. -/
theorem lexes_longer {d : Char} {long short : Punct} (hlong : long.spelling.toList = [d, c])
    (hshort : short.spelling.toList = [d]) (hend : ∀ rest, goesOn [d, c] rest = false)
    (hon : ∀ rest, goesOn [d] rest = begins (· = c) rest) (cs : Cursor) :
    ∃ word, d :: cs = word ++ (longer c long short cs).2 ∧
      Lexes (longer c long short cs).1 word (longer c long short cs).2 := by
  unfold longer
  split
  · rename_i rest hrest
    have hlexes : Lexes (.punct long) long.spelling.toList rest :=
      .punct long (by rw [hlong]; exact hend rest)
    rw [hlong] at hlexes
    exact ⟨[d, c], by rw [Cursor.eq_cons_of_eat? hrest]; rfl, hlexes⟩
  · rename_i hnone
    have hlexes : Lexes (.punct short) short.spelling.toList cs :=
      .punct short (by rw [hshort, hon]; exact begins_of_eat? hnone)
    rw [hshort] at hlexes
    exact ⟨[d], rfl, hlexes⟩

/-- A character and what should close it are a quoted literal. -/
theorem quoted_closeQuote {word : Cursor} (h : Shown word c) (cs : Cursor) :
    ∃ literal, '\'' :: (word ++ cs) = literal ++ (closeQuote c cs).2 ∧
      Quoted (closeQuote c cs).1 literal (closeQuote c cs).2 := by
  unfold closeQuote
  split
  · rename_i rest hrest
    refine ⟨'\'' :: (word ++ ['\'']), ?_, .closed h⟩
    rw [Cursor.eq_cons_of_eat? hrest]
    simp
  · exact ⟨'\'' :: word, rfl, .unclosed h (begins_of_eat? ‹_›)⟩

/-- An escape and what follows it are a quoted literal. -/
theorem quoted_escape (cs : Cursor) :
    ∃ literal, '\'' :: '\\' :: cs = literal ++ (escape cs).2 ∧
      Quoted (escape cs).1 literal (escape cs).2 := by
  have hescape {c meant : Char} (h : (c, meant) ∈ escapes) (cs : Cursor) :=
    quoted_closeQuote (.escape h) cs
  fun_cases escape cs with
  | case1 => exact ⟨['\'', '\\'], rfl, .ended (.inr rfl)⟩
  | case2 cs => exact hescape (c := 'n') (by decide) cs
  | case3 cs => exact hescape (c := 'r') (by decide) cs
  | case4 cs => exact hescape (c := '0') (by decide) cs
  | case5 cs => exact hescape (c := '\\') (by decide) cs
  | case6 cs => exact ⟨['\'', '\\', '\n'], rfl, .newline (.inr rfl)⟩
  | case7 c cs hn hr h0 hslash hnewline =>
    refine ⟨['\'', '\\', c], rfl, .unknown hnewline fun meant hmem => ?_⟩
    simp only [escapes, List.mem_cons, Prod.mk.injEq, List.not_mem_nil, or_false] at hmem
    rcases hmem with h | h | h | h
    · exact hn h.1
    · exact hr h.1
    · exact h0 h.1
    · exact hslash h.1

/-- **What starts with a quote is taken for a character literal as far as it
can be.** -/
theorem quoted_character (cs : Cursor) :
    ∃ literal, '\'' :: cs = literal ++ (character cs).2 ∧
      Quoted (character cs).1 literal (character cs).2 := by
  fun_cases character cs with
  | case1 => exact ⟨['\''], rfl, .ended (.inl rfl)⟩
  | case2 cs => exact quoted_escape cs
  | case3 cs => exact ⟨['\'', '\n'], rfl, .newline (.inl rfl)⟩
  | case4 cs => exact ⟨['\'', '\''], rfl, .empty⟩
  | case5 c cs hslash hnewline hquote =>
    exact quoted_closeQuote (.plain hslash hnewline hquote) cs

/-- **What is scanned is a token.** -/
theorem lexes_lexeme (hstarts : StartsToken (c :: cs)) :
    ∃ word, c :: cs = word ++ (lexeme c cs).2 ∧ Lexes (lexeme c cs).1 word (lexeme c cs).2 := by
  have htake (p : Char → Bool) : ∀ d ∈ cs.takeWhile p, p d = true := fun _ => List.mem_takeWhile_imp
  have hsplit (p : Char → Bool) : c :: cs = (c :: cs.takeWhile p) ++ cs.dropWhile p := by
    rw [List.cons_append, List.takeWhile_append_dropWhile]
  obtain ⟨hwhite, hcomment⟩ := hstarts
  by_cases hdigit : Text.isDigit c = true
  · have hrun : ∀ d ∈ c :: cs.takeWhile isNumberChar, isNumberChar d = true :=
      List.forall_mem_cons.2 ⟨isNumberChar_of_isDigit hdigit, htake _⟩
    rw [lexeme_of_isDigit hdigit]
    exact ⟨_, hsplit isNumberChar,
      .number hdigit hrun (numeral_number hrun) (begins_dropWhile _ _)⟩
  by_cases hname : isNameStart c = true
  · rw [lexeme_of_isNameStart hname]
    exact ⟨_, hsplit isNameChar, lexes_word hname (htake _) (begins_dropWhile _ _)⟩
  -- what is left are signs, each with its own character
  unfold lexeme
  split
  case h_12 =>
    obtain ⟨hline, hblock⟩ := hcomment rfl
    have hend : goesOn ['/'] cs = false := Bool.or_eq_false_iff.2 ⟨hline, hblock⟩
    exact ⟨['/'], rfl, .punct .slash hend⟩
  case h_13 | h_14 | h_15 | h_16 | h_17 | h_18 =>
    exact lexes_longer rfl rfl (fun _ => rfl) (fun _ => rfl) cs
  case h_19 =>
    obtain ⟨literal, hcs, hquoted⟩ := quoted_character cs
    exact ⟨literal, hcs, .quoted hquoted⟩
  case h_20 =>
    rw [if_neg hdigit, if_neg hname]
    refine ⟨[c], rfl, .unexpected hwhite ?_ ?_⟩
    · rw [isNameStart, Bool.or_eq_true, not_or] at hname
      simp [isNameChar, hdigit, hname]
    · simp only [signs, List.mem_cons, List.not_mem_nil, or_false, not_or]
      and_intros <;> assumption
  all_goals exact ⟨[_], rfl, .punct _ rfl⟩

/-- Where blanks and comments end, the text ends too, or a token starts, or a
comment that is not closed. -/
theorem fromToken_cases (cs : Cursor) :
    fromToken cs = [] ∨ StartsToken (fromToken cs) ∨
      ∃ body, fromToken cs = '/' :: '*' :: body ∧ afterComment? body = none := by
  fun_induction fromToken cs with
  | case1 => exact .inl rfl
  | case2 cs ih => exact ih
  | case3 cs rest h ih => exact ih
  | case4 cs h => exact .inr (.inr ⟨cs, rfl, h⟩)
  | case5 c cs _ _ hc ih => exact ih
  | case6 c cs hline hblock hc =>
    exact .inr (.inl (startsToken_of_ne (Bool.eq_false_iff.2 hc) hline hblock))

/-- **After blanks and comments stands a token.** -/
theorem exists_lexes (cs : Cursor) :
    ∃ k word rest, fromToken cs = word ++ rest ∧ Lexes k word rest := by
  rcases fromToken_cases cs with h | h | ⟨body, h, hbody⟩
  · exact ⟨.endOfFile, [], [], h, .ended⟩
  · generalize fromToken cs = ds at h
    cases h with
    | @intro c ds hwhite hcomment =>
      obtain ⟨word, hword, hlexes⟩ := lexes_lexeme (.intro hwhite hcomment)
      exact ⟨_, word, _, hword, hlexes⟩
  · rw [h]
    exact ⟨_, _, [], (List.append_nil _).symm, .comment (afterComment?_eq_none.1 hbody)⟩

/-! ## §3. The token is scanned -/

/-- A plain character is read up to its quote. -/
theorem character_shown {word : Cursor} (h : Shown word c) (cs : Cursor) :
    character (word ++ cs) = closeQuote c cs := by
  cases h with
  | plain hslash hnewline hquote =>
    rw [List.singleton_append, character]
    · exact hslash
    · exact hnewline
    · exact hquote
  | escape h =>
    simp only [escapes, List.mem_cons, Prod.mk.injEq, List.not_mem_nil, or_false] at h
    rcases h with ⟨rfl, rfl⟩ | ⟨rfl, rfl⟩ | ⟨rfl, rfl⟩ | ⟨rfl, rfl⟩ <;> rfl

variable {k : Kind} {word rest : Cursor}

/-- A quoted literal is spelled as a token. -/
theorem Quoted.spelled (h : Quoted k word rest) : Spelled k word rest := by
  cases h with
  | closed h =>
    apply spelled_literal
    rw [List.append_assoc, character_shown h]
    rfl
  | unclosed h hrest =>
    apply spelled_literal
    rw [character_shown h, closeQuote, eat?_of_begins hrest]
  | empty => exact spelled_literal rfl
  | newline hslash => rcases hslash with rfl | rfl <;> exact spelled_literal rfl
  | ended hslash => rcases hslash with rfl | rfl <;> exact spelled_literal rfl
  | @unknown c _ hnewline hc =>
    apply spelled_literal
    show escape (c :: rest) = _
    rw [escape]
    · rintro rfl
      exact hc '\n' (by decide)
    · rintro rfl
      exact hc '\r' (by decide)
    · rintro rfl
      exact hc '\x00' (by decide)
    · rintro rfl
      exact hc '\\' (by decide)
    · exact hnewline

/-- A token is scanned as such, a comment that is not closed and the end of the
text apart. -/
theorem Lexes.spelled_or_ended (h : Lexes k word rest) :
    Spelled k word rest ∨
      (∃ body, k = .invalid .unterminatedComment ∧ word = '/' :: '*' :: body ∧ rest = [] ∧
        afterComment? body = none) ∨
      k = .endOfFile ∧ word = [] ∧ rest = [] := by
  cases h with
  | keyword k hrest => exact .inl (spelled_keyword k hrest)
  | identifier hx hrest => exact .inl (spelled_name hx hrest)
  | number hfirst hrun hk hrest =>
    rw [← hk.number_eq]
    exact .inl (spelled_number hfirst hrun hrest)
  | punct p hrest => exact .inl (spelled_punct p hrest)
  | quoted h => exact .inl h.spelled
  | @unexpected c _ hwhite hname hsign =>
    refine .inl (.intro (.intro hwhite ?_) ?_)
    · rintro rfl
      exact absurd (by decide) hsign
    · have hdigit : ¬ Text.isDigit c = true := fun h => by
        rw [isNameChar_of_isDigit h] at hname
        cases hname
      have hstart : ¬ isNameStart c = true := fun h => by
        rw [isNameChar_of_isNameStart h] at hname
        cases hname
      rw [List.nil_append, lexeme, if_neg hdigit, if_neg hstart]
      all_goals
        rintro rfl
        exact hsign (by decide)
  | comment hbody => exact .inr (.inl ⟨_, rfl, rfl, rfl, afterComment?_eq_none.2 hbody⟩)
  | ended => exact .inr (.inr ⟨rfl, rfl, rfl⟩)

/-- Only the end of the text has no characters. -/
theorem Lexes.eq_nil_iff (h : Lexes k word rest) : word = [] ↔ k = .endOfFile := by
  rcases h.spelled_or_ended with h | ⟨body, rfl, rfl, rfl, _⟩ | ⟨rfl, rfl, rfl⟩
  · cases h with
    | @intro c cs _ _ hscanned =>
      have hne := kind_lexeme_ne c (cs ++ rest)
      rw [hscanned] at hne
      exact iff_of_false (List.cons_ne_nil c cs) hne
  · exact iff_of_false (List.cons_ne_nil _ _) nofun
  · exact iff_of_true rfl rfl

/-- A name is what is written. -/
theorem Lexes.word_eq_of_identifier {x : String} (h : Lexes (.identifier x) word rest) :
    word = x.toList := by
  cases h with
  | identifier _ _ => rfl
  | number _ _ hk _ => cases hk
  | quoted h => cases h

/-- **What is a token by the rules is scanned as that token**, up to where it
ends. -/
theorem scan_lexes {gap : Cursor} (hgap : Filler (word ++ rest) gap) (hword : Lexes k word rest)
    (line : Nat) : (scan ⟨gap ++ (word ++ rest), line⟩).1.kind = k ∧
      (scan ⟨gap ++ (word ++ rest), line⟩).2.rest = rest := by
  rcases hword.spelled_or_ended with h | ⟨body, rfl, rfl, rfl, hbody⟩ | ⟨rfl, rfl, rfl⟩
  · rw [scan_spelled hgap h]
    exact ⟨rfl, rfl⟩
  · -- skipping runs to the end of the text, but what it runs over is the token
    have hskip := skip_filler hgap line
    have hopen : (skip .nothing (gap ++ ('/' :: '*' :: body ++ [])) line).unclosed =
        some (line + gap.count '\n') := by
      have hcomment := skip_blockComment (line + gap.count '\n') body (line + gap.count '\n')
      rw [hbody] at hcomment
      rw [hskip, List.append_nil]
      exact hcomment
    rw [scan]
    dsimp only
    rw [hopen]
    exact ⟨rfl, rest_skip_of_unclosed hopen⟩
  · rw [scan, skip_filler hgap]
    exact ⟨rfl, rfl⟩

/-- **Every scan takes blanks and comments, and then a token.** -/
theorem exists_slice (p : Place) :
    ∃ gap word, p.rest = gap ++ (word ++ (scan p).2.rest) ∧
      Filler (word ++ (scan p).2.rest) gap ∧ Lexes (scan p).1.kind word (scan p).2.rest := by
  obtain ⟨gap, hgap, hcs⟩ := exists_filler p.rest
  obtain ⟨k, word, rest, htoken, hword⟩ := exists_lexes p.rest
  rw [htoken] at hgap hcs
  obtain ⟨hkind, hrest⟩ := scan_lexes hgap hword p.line
  rw [← hcs] at hkind hrest
  refine ⟨gap, word, ?_, ?_, ?_⟩
  · rw [hrest]
    exact hcs
  · rw [hrest]
    exact hgap
  · rw [hkind, hrest]
    exact hword

-- an end mark needs a star of its own, and a run of digits and points is one number
example : scan ⟨"/*/ */ /***/ 1..2x".toList, 1⟩ =
    (⟨.invalid .malformedFloat, 1⟩, ⟨['x'], 1⟩) := by decide +kernel

/-- A valid token can be written. -/
theorem Lexes.exists_writes (h : Lexes k word rest) (hvalid : k.isValid = true)
    (hne : k ≠ .endOfFile) : ∃ text, Writes k text := by
  cases h with
  | keyword k _ => exact ⟨_, .keyword k⟩
  | identifier hx _ => exact ⟨_, .identifier hx⟩
  | number hfirst _ hk _ =>
    cases hk with
    | integer _ hle => exact ⟨_, .integer 0 hle⟩
    | float hwhole hfraction =>
      refine ⟨_, .float ?_ hwhole hfraction⟩
      rintro rfl
      cases hfirst
    | overflow _ _ => cases hvalid
    | malformed _ => cases hvalid
  | punct p _ => exact ⟨_, .punct p⟩
  | quoted h =>
    cases h with
    | closed h =>
      cases h with
      | plain hslash hnewline hquote => exact ⟨_, .character hslash hnewline hquote⟩
      | escape h => exact ⟨_, .escape h⟩
    | _ => cases hvalid
  | unexpected _ _ _ => cases hvalid
  | comment _ => cases hvalid
  | ended => exact absurd rfl hne

/-! ## §4. Reading to the end -/

/-- What one token takes of a text. -/
structure Slice where
  /-- The blanks and comments before the token. -/
  gap : Cursor
  /-- The characters of the token. -/
  word : Cursor
  deriving DecidableEq, Repr

/-- The characters of a slice. -/
def Slice.text (s : Slice) : Cursor := s.gap ++ s.word

/-- **Adjacent slices make up the text**, up to where the last one ends. -/
theorem flatMap_slices {p : Place} {slice : Nat → Slice}
    (h : ∀ i, (p.beyond i).rest = (slice i).text ++ (p.beyond (i + 1)).rest) (n : Nat) :
    ((List.range n).map slice).flatMap Slice.text ++ (p.beyond n).rest = p.rest := by
  induction n with
  | zero => rfl
  | succ n ih =>
    rw [List.range_succ, List.map_append, List.flatMap_append, List.append_assoc,
      List.map_singleton, List.flatMap_singleton, ← h, ih]

end Scan

namespace Reader

open Scan (Filler Lexes Slice)

/-- **Reading the next token takes the slice.** -/
structure Takes (r : Reader) (s : Slice) : Prop where
  /-- The slice is what stands next, and reading goes on after it. -/
  rest : r.here.rest = s.text ++ r.next.2.here.rest
  /-- It starts with blanks and comments. -/
  gap : Filler (s.word ++ r.next.2.here.rest) s.gap
  /-- After these stands the token. -/
  word : Lexes r.next.1.kind s.word r.next.2.here.rest
  /-- Only the end of the text has no characters. -/
  word_eq_nil : s.word = [] ↔ r.next.1.kind = .endOfFile
  /-- A name is found in the table as it is written. -/
  name : ∀ x, r.next.1.kind = .identifier x → ∃ handle, r.handleAt 0 = some handle ∧
    r.next.2.names.text? handle = some (String.ofList s.word)
  /-- The rules leave no other choice. -/
  only : ∀ {k gap word rest}, r.here.rest = gap ++ (word ++ rest) → Filler (word ++ rest) gap →
    Lexes k word rest → r.next.1.kind = k ∧ r.next.2.here.rest = rest

/-- **Every reader takes something**: there is a rule for each text. -/
theorem exists_takes (r : Reader) : ∃ s, r.Takes s := by
  obtain ⟨gap, word, hrest, hgap, hword⟩ := Scan.exists_slice r.here
  refine ⟨⟨gap, word⟩, ?_, hgap, hword, hword.eq_nil_iff, ?_, ?_⟩
  · rw [hrest, ← List.append_assoc]
    rfl
  · intro x hx
    have hname : r.next.1.kind.name? = some x := by
      rw [hx]
      rfl
    have hword : Lexes r.next.1.kind word r.next.2.here.rest := hword
    rw [hx] at hword
    -- the handle is given out before the name is entered, and names it afterwards
    refine ⟨(r.names.intern x).1, ?_, ?_⟩
    · rw [handleAt, Names.handle?, hname]
      rfl
    · show (r.names.note r.next.1).text? _ = some (String.ofList word)
      rw [Names.note_eq, hname, hword.word_eq_of_identifier, String.ofList_toList]
      exact r.names.text?_intern x
  · -- any slice that keeps the rules is the one that is scanned
    intro k gap word rest hcs hgap hword
    have hscan := Scan.scan_lexes hgap hword r.here.line
    rwa [← hcs] at hscan

/-- **Scanning takes a text apart and leaves nothing out.**  The slices that are
taken call after call, up to the first end of the text, are adjacent and make up
the text.  From then on every call gives the end of the text. -/
theorem slices_exact (text : String) (names : Names) :
    ∃ (slices : List Slice) (last : Token),
      slices.flatMap Slice.text = text.toList ∧
      (∀ i s, slices[i]? = some s → ((Reader.mk (.start text) names).after i).Takes s) ∧
      slices ≠ [] ∧
      (∀ i, ((Reader.mk (.start text) names).after i).next.1.kind = .endOfFile ↔
        slices.length ≤ i + 1) ∧
      last.kind = .endOfFile ∧
      ∀ i, slices.length ≤ i + 1 →
        ((Reader.mk (.start text) names).after i).next.1 = last := by
  generalize hr : Reader.mk (.start text) names = r
  have htext : r.here.rest = text.toList := by
    rw [← hr]
    rfl
  choose slice hslice using fun i => (r.after i).exists_takes
  have hadjacent (i : Nat) : (r.here.beyond i).rest =
      (slice i).text ++ (r.here.beyond (i + 1)).rest := by
    rw [← here_after, ← here_after]
    exact (hslice i).rest
  -- one slice for each token, and one for the end of the text
  let n := (Scan.tokensFrom r.here).list.length
  have hlength : ((List.range (n + 1)).map slice).length = n + 1 := by simp
  refine ⟨(List.range (n + 1)).map slice, ⟨.endOfFile, (Scan.tokensFrom r.here).endLine⟩,
    ?_, ?_, ?_, ?_, rfl, ?_⟩
  · have hall := Scan.flatMap_slices hadjacent (n + 1)
    rw [Scan.rest_beyond_length, List.append_nil, htext] at hall
    exact hall
  · intro i s hs
    obtain ⟨hi, rfl⟩ := List.getElem?_eq_some_iff.1 hs
    rw [List.getElem_map, List.getElem_range]
    exact hslice i
  · rw [← List.length_pos_iff, hlength]
    exact Nat.succ_pos n
  · intro i
    rw [next_after, hlength, Nat.add_le_add_iff_right]
    exact Scan.kind_entry_eq_endOfFile
  · intro i hi
    rw [hlength, Nat.add_le_add_iff_right] at hi
    rw [next_after]
    exact Scan.entry_of_le hi

end Reader

end MiniC
