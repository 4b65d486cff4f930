/-
  MiniC.Proofs.Scanning.Printing

  **Scanning undoes printing.**

  `Writes` says how each kind of token is written, and `Printed` how a list of
  them is: one word after the other, with blanks between two of them or
  nothing.  Nothing may stand between two words that do not cling together
  (`clings`): two names or numbers would be one, and some operators go on with
  the next character or open a comment.

    • A word that does not cling to what follows is scanned as its token, and
      ends where it was written (`spelled_of_writes`).
    • So what is printed is scanned as what was to be printed, and then what
      follows is scanned (`kindsOf_printed`).
-/
import MiniC.Proofs.Scanning.Renaming

namespace MiniC

open Text (Cursor)

/-! ## §1. Decimal notation -/

namespace Text

theorem isDigit_eq (c : Char) : isDigit c = c.isDigit := by
  simp only [isDigit, Char.isDigit, Char.le_def]

theorem isDigit_of_mem_digitsOf {n : Nat} {c : Char} (h : c ∈ digitsOf n) : isDigit c = true := by
  rw [isDigit_eq]
  exact Nat.isDigit_of_mem_toDigits (Nat.succ_pos 9) (Nat.le_refl 10) h

theorem digitsValue_digitsOf (n : Nat) : digitsValue (digitsOf n) = n :=
  Nat.ofDigitChars_toDigits (by decide) (Nat.le_refl 10)

/-- Zeros in front count for nothing. -/
theorem digitsValue_zeros (zeros : Nat) (ds : List Char) :
    digitsValue (List.replicate zeros '0' ++ ds) = digitsValue ds := by
  induction zeros with
  | zero => rfl
  | succ zeros ih => exact ih

end Text

namespace Scan

variable {c : Char} {rest word : Cursor} {k : Kind}

/-! ## §2. How tokens are written -/

/-- The characters that may follow a backslash, each with the one meant. -/
def escapes : List (Char × Char) :=
  [('n', '\n'), ('r', '\r'), ('0', '\x00'), ('\\', '\\')]

/-- How a token is written. -/
inductive Writes : Kind → Cursor → Prop where
  | keyword (k : Keyword) : Writes (.keyword k) k.spelling.toList
  | identifier {x : String} (hx : isName x = true) : Writes (.identifier x) x.toList
  /-- The number in decimal; zeros may stand in front. -/
  | integer {n : Nat} (zeros : Nat) (hn : n ≤ 2147483647) :
      Writes (.integer (Int32.ofNat n)) (List.replicate zeros '0' ++ Text.digitsOf n)
  /-- Digits, a point, and any further digits. -/
  | float {whole fraction : List Char} (hne : whole ≠ [])
      (hwhole : ∀ c ∈ whole, Text.isDigit c = true)
      (hfraction : ∀ c ∈ fraction, Text.isDigit c = true) :
      Writes (.float (Decimal.ofPointed whole fraction).toBinary32) (whole ++ '.' :: fraction)
  | punct (p : Punct) : Writes (.punct p) p.spelling.toList
  /-- A character in quotes is its number. -/
  | character {c : Char} (hslash : c ≠ '\\') (hnewline : c ≠ '\n') (hquote : c ≠ '\'') :
      Writes (.integer (Int32.ofNat c.toNat)) ['\'', c, '\'']
  | escape {c meant : Char} (h : (c, meant) ∈ escapes) :
      Writes (.integer (Int32.ofNat meant.toNat)) ['\'', '\\', c, '\'']

/-- The word is an operator that goes on with the first character of `next`,
or opens a comment with it. -/
def goesOn (word next : Cursor) : Bool :=
  match word with
  | ['!'] | ['='] | ['<'] | ['>'] => begins (· = '=') next
  | ['&'] => begins (· = '&') next
  | ['|'] => begins (· = '|') next
  | ['/'] => begins (· = '/') next || begins (· = '*') next
  | _ => false

/-- The word would not end before `next`: both are names, keywords or numbers,
or the word is an operator that goes on. -/
def clings (word next : Cursor) : Bool :=
  begins isNameChar word && begins isNameChar next || goesOn word next

/-! ## §3. A word is scanned as its token -/

theorem isNameChar_of_isDigit (h : Text.isDigit c = true) : isNameChar c = true := by
  rw [isNameChar, h, Bool.or_true, Bool.true_or]

theorem isNumberChar_of_isDigit (h : Text.isDigit c = true) : isNumberChar c = true := by
  rw [isNumberChar, h, Bool.true_or]

/-- A run of letters and digits ends before what it does not cling to. -/
theorem begins_of_clings {cs next : Cursor} (hc : isNameChar c = true)
    (h : clings (c :: cs) next = false) : begins isNameChar next = false := by
  have hword : begins isNameChar (c :: cs) = true := hc
  rw [clings, hword, Bool.true_and] at h
  exact (Bool.or_eq_false_iff.1 h).1

/-- A digit starts a number. -/
theorem lexeme_of_isDigit (h : Text.isDigit c = true) (cs : Cursor) :
    lexeme c cs = (number (c :: cs.takeWhile isNumberChar), cs.dropWhile isNumberChar) := by
  rw [lexeme, if_pos h]
  all_goals
    rintro rfl
    cases h

/-- A character of a name starts a token. -/
theorem startsToken_of_isNameChar (h : isNameChar c = true) (cs : Cursor) :
    StartsToken (c :: cs) := by
  refine .intro ?_ ?_
  · cases hwhite : isWhite c with
    | false => rfl
    | true => rcases eq_of_isWhite hwhite with rfl | rfl | rfl | rfl | rfl <;> cases h
  · rintro rfl
    cases h

/-- A number ends before what it does not cling to, if that is no point. -/
theorem number_ends {run : Cursor} (hfirst : begins Text.isDigit run = true)
    (hrest : clings run rest = false) (hpoint : begins (· = '.') rest = false) :
    begins isNumberChar rest = false := by
  cases run with
  | nil => cases hfirst
  | cons c cs =>
    have hname := begins_of_clings (isNameChar_of_isDigit hfirst) hrest
    cases rest with
    | nil => rfl
    | cons d ds =>
      have hd : Text.isDigit d = false := by
        cases hd : Text.isDigit d with
        | false => rfl
        | true => exact absurd (hname.symm.trans (isNameChar_of_isDigit hd)) Bool.false_ne_true
      exact Bool.or_eq_false_iff.2 ⟨hd, hpoint⟩

/-- A run of digits and points is scanned as one where it ends. -/
theorem spelled_number {run : Cursor} (hfirst : begins Text.isDigit run = true)
    (hrun : ∀ c ∈ run, isNumberChar c = true) (hrest : begins isNumberChar rest = false) :
    Spelled (number run) run rest := by
  cases run with
  | nil => cases hfirst
  | cons c cs =>
    have hc : Text.isDigit c = true := hfirst
    obtain ⟨htake, hdrop⟩ := takeWhile_run (List.forall_mem_cons.1 hrun).2 hrest
    refine .intro (startsToken_of_isNameChar (isNameChar_of_isDigit hc) _) ?_
    rw [lexeme_of_isDigit hc, htake, hdrop]

theorem count_point {ds : List Char} (h : ∀ c ∈ ds, Text.isDigit c = true) :
    ds.count '.' = 0 := by
  refine List.count_eq_zero_of_not_mem fun hmem => ?_
  exact absurd (h '.' hmem) Bool.false_ne_true

theorem number_digits {ds : List Char} (h : ∀ c ∈ ds, Text.isDigit c = true)
    (hle : Text.digitsValue ds ≤ 2147483647) :
    number ds = .integer (Int32.ofNat (Text.digitsValue ds)) := by
  rw [number, count_point h]
  exact if_pos hle

/-- Digits around one point are read as that decimal. -/
theorem number_pointed {whole fraction : List Char} (hwhole : ∀ c ∈ whole, Text.isDigit c = true)
    (hfraction : ∀ c ∈ fraction, Text.isDigit c = true) :
    number (whole ++ '.' :: fraction) =
      .float (Decimal.ofPointed whole fraction).toBinary32 := by
  have hcount : (whole ++ '.' :: fraction).count '.' = 1 := by
    rw [List.count_append, List.count_cons_self, count_point hwhole, count_point hfraction]
  have hpoint : begins Text.isDigit ('.' :: fraction) = false := rfl
  obtain ⟨htake, hdrop⟩ := takeWhile_run hwhole hpoint
  rw [number, hcount]
  dsimp only [numberWith]
  rw [htake, hdrop]
  rfl

/-- Zeros and digits are digits. -/
theorem isDigit_of_mem_decimal (zeros n : Nat) :
    ∀ c ∈ List.replicate zeros '0' ++ Text.digitsOf n, Text.isDigit c = true := by
  intro c hc
  rcases List.mem_append.1 hc with hc | hc
  · rw [List.eq_of_mem_replicate hc]
    rfl
  · exact Text.isDigit_of_mem_digitsOf hc

theorem begins_of_forall {p : Char → Bool} {cs : Cursor} (hne : cs ≠ [])
    (h : ∀ c ∈ cs, p c = true) : begins p cs = true := by
  obtain ⟨c, cs, rfl⟩ := List.exists_cons_of_ne_nil hne
  exact h c List.mem_cons_self

/-- A keyword is scanned as one where it ends. -/
theorem spelled_keyword (k : Keyword) (hrest : begins isNameChar rest = false) :
    Spelled (.keyword k) k.spelling.toList rest := by
  obtain ⟨c, cs, hword, hc, hcs⟩ : ∃ c cs, k.spelling.toList = c :: cs ∧ isNameStart c = true ∧
      ∀ d ∈ cs, isNameChar d = true := by
    cases k <;> exact ⟨_, _, rfl, rfl, List.all_eq_true.1 rfl⟩
  obtain ⟨htake, hdrop⟩ := takeWhile_run hcs hrest
  rw [hword]
  refine .intro (startsToken_of_isNameChar (isNameChar_of_isNameStart hc) _) ?_
  rw [lexeme_of_isNameStart hc, htake, hdrop, word, ← hword, String.ofList_toList,
    Keyword.ofSpelling?_spelling]

/-- The shorter of two operators is scanned where the longer one is not
written. -/
theorem spelled_short {d : Char} {long short : Punct}
    (hd : lexeme d rest = longer c long short rest) (hstarts : StartsToken (d :: rest))
    (h : begins (· = c) rest = false) : Spelled (.punct short) [d] rest := by
  refine .intro hstarts ?_
  rw [List.nil_append, hd, longer, eat?_of_begins h]

/-- The longer of two operators is scanned wherever it is written. -/
theorem spelled_long {d : Char} {long : Punct} (short : Punct)
    (hd : lexeme d (c :: rest) = longer c long short (c :: rest))
    (hstarts : StartsToken (d :: c :: rest)) : Spelled (.punct long) [d, c] rest := by
  refine .intro hstarts ?_
  rw [List.cons_append, List.nil_append, hd, longer, Cursor.eat?, if_pos rfl]

/-- An operator is scanned as it is written, unless it goes on. -/
theorem spelled_punct (p : Punct) (hrest : goesOn p.spelling.toList rest = false) :
    Spelled (.punct p) p.spelling.toList rest := by
  have hstarts {c : Char} {cs : Cursor} (hwhite : isWhite c = false) (hslash : c ≠ '/') :
      StartsToken (c :: cs) := .intro hwhite fun h => absurd h hslash
  cases p with
  | slash =>
    obtain ⟨hline, hblock⟩ := Bool.or_eq_false_iff.1 hrest
    exact .intro (.intro rfl fun _ => ⟨hline, hblock⟩) rfl
  | bang => exact spelled_short (d := '!') (c := '=') rfl (hstarts rfl (by decide)) hrest
  | amp => exact spelled_short (d := '&') (c := '&') rfl (hstarts rfl (by decide)) hrest
  | pipe => exact spelled_short (d := '|') (c := '|') rfl (hstarts rfl (by decide)) hrest
  | eq => exact spelled_short (d := '=') (c := '=') rfl (hstarts rfl (by decide)) hrest
  | lt => exact spelled_short (d := '<') (c := '=') rfl (hstarts rfl (by decide)) hrest
  | gt => exact spelled_short (d := '>') (c := '=') rfl (hstarts rfl (by decide)) hrest
  | bangEq => exact spelled_long (d := '!') (c := '=') .bang rfl (hstarts rfl (by decide))
  | ampAmp => exact spelled_long (d := '&') (c := '&') .amp rfl (hstarts rfl (by decide))
  | pipePipe => exact spelled_long (d := '|') (c := '|') .pipe rfl (hstarts rfl (by decide))
  | eqEq => exact spelled_long (d := '=') (c := '=') .eq rfl (hstarts rfl (by decide))
  | ltEq => exact spelled_long (d := '<') (c := '=') .lt rfl (hstarts rfl (by decide))
  | gtEq => exact spelled_long (d := '>') (c := '=') .gt rfl (hstarts rfl (by decide))
  | _ => exact .intro (hstarts rfl (by decide)) rfl

theorem spelled_literal (h : character (word ++ rest) = (k, rest)) :
    Spelled k ('\'' :: word) rest :=
  .intro (.intro rfl fun hc => absurd hc (by decide)) h

/-- **A word is scanned as its token before what it does not cling to.** -/
theorem spelled_of_writes (h : Writes k word) (hrest : clings word rest = false)
    (hpoint : begins (· = '.') rest = false) : Spelled k word rest := by
  cases h with
  | keyword k =>
    obtain ⟨c, cs, hword, hc⟩ : ∃ c cs, k.spelling.toList = c :: cs ∧ isNameChar c = true := by
      cases k <;> exact ⟨_, _, rfl, by decide⟩
    rw [hword] at hrest
    exact spelled_keyword k (begins_of_clings hc hrest)
  | identifier hx =>
    obtain ⟨c, cs, hword, hc⟩ := isNameStart_of_isName hx
    rw [hword] at hrest
    exact spelled_name hx (begins_of_clings (isNameChar_of_isNameStart hc) hrest)
  | @integer n zeros hn =>
    -- zeros in front do not change the value
    have hdigits := isDigit_of_mem_decimal zeros n
    have hvalue : Text.digitsValue (List.replicate zeros '0' ++ Text.digitsOf n) = n := by
      rw [Text.digitsValue_zeros, Text.digitsValue_digitsOf]
    have hkind := number_digits hdigits (by rw [hvalue]; exact hn)
    rw [hvalue] at hkind
    rw [← hkind]
    have hne : List.replicate zeros '0' ++ Text.digitsOf n ≠ [] :=
      List.append_ne_nil_of_right_ne_nil _ Nat.toDigits_ne_nil
    have hfirst := begins_of_forall hne hdigits
    exact spelled_number hfirst (fun c hc => isNumberChar_of_isDigit (hdigits c hc))
      (number_ends hfirst hrest hpoint)
  | @float whole fraction hne hwhole hfraction =>
    rw [← number_pointed hwhole hfraction]
    have hfirst : begins Text.isDigit (whole ++ '.' :: fraction) = true := by
      obtain ⟨c, cs, rfl⟩ := List.exists_cons_of_ne_nil hne
      exact hwhole c List.mem_cons_self
    refine spelled_number hfirst (fun c hc => ?_) (number_ends hfirst hrest hpoint)
    rcases List.mem_append.1 hc with hc | hc
    · exact isNumberChar_of_isDigit (hwhole c hc)
    · rcases List.mem_cons.1 hc with rfl | hc
      · rfl
      · exact isNumberChar_of_isDigit (hfraction c hc)
  | punct p => exact spelled_punct p (Bool.or_eq_false_iff.1 hrest).2
  | @character c hslash hnewline hquote =>
    apply spelled_literal
    show character (c :: '\'' :: rest) = _
    rw [character]
    · rfl
    · exact hslash
    · exact hnewline
    · exact hquote
  | escape h =>
    simp only [escapes, List.mem_cons, Prod.mk.injEq, List.not_mem_nil, or_false] at h
    rcases h with ⟨rfl, rfl⟩ | ⟨rfl, rfl⟩ | ⟨rfl, rfl⟩ | ⟨rfl, rfl⟩ <;> exact spelled_literal rfl

theorem Writes.isValid (h : Writes k word) : k.isValid = true := by
  cases h <;> rfl

theorem Writes.ne_endOfFile (h : Writes k word) : k ≠ .endOfFile := by
  cases h <;> nofun

/-! ## §4. Printing -/

/-- The tokens are printed one after the other, and `more` follows.  Blanks keep
a token apart from the next, or nothing does if the two do not cling together.
No token begins with a point, and neither does what follows. -/
inductive Printed (more : Cursor) : List Kind → Cursor → Prop where
  | nil (hmore : begins (· = '.') more = false) : Printed more [] more
  | apart {k : Kind} {word gap text : Cursor} {ks : List Kind} (hword : Writes k word)
      (hne : gap ≠ []) (hgap : ∀ c ∈ gap, isWhite c = true) (hlater : Printed more ks text) :
      Printed more (k :: ks) (word ++ (gap ++ text))
  | joined {k : Kind} {word text : Cursor} {ks : List Kind} (hword : Writes k word)
      (hfree : clings word text = false) (hlater : Printed more ks text) :
      Printed more (k :: ks) (word ++ text)

theorem goesOn_nil (word : Cursor) : goesOn word [] = false := by
  unfold goesOn
  split <;> rfl

/-- Every word ends where the text does. -/
theorem clings_nil (word : Cursor) : clings word [] = false := by
  rw [clings, goesOn_nil, Bool.or_false]
  exact Bool.and_false _

/-- Every word ends before a blank. -/
theorem clings_white (hc : isWhite c = true) (word cs : Cursor) :
    clings word (c :: cs) = false := by
  have hname : begins isNameChar (c :: cs) = false := splits_isNameChar.white hc
  have hsign : goesOn word (c :: cs) = false := by
    unfold goesOn
    rcases eq_of_isWhite hc with rfl | rfl | rfl | rfl | rfl <;> split <;> rfl
  rw [clings, hname, hsign, Bool.and_false, Bool.or_false]

/-- Blanks alone are passed over. -/
theorem trivia_of_white {gap : Cursor} (h : ∀ c ∈ gap, isWhite c = true) : Trivia gap := by
  induction gap with
  | nil => exact .nil
  | cons c gap ih =>
    obtain ⟨hc, hgap⟩ := List.forall_mem_cons.1 h
    exact .blank hc (ih hgap)

/-- No word begins with a point. -/
theorem begins_of_writes (h : Writes k word) (rest : Cursor) :
    begins (· = '.') (word ++ rest) = false := by
  -- a text that begins with a point is scanned as an invalid token
  have hspelled := spelled_of_writes h (clings_nil word) rfl
  cases hspelled with
  | @intro c cs _ _ hscanned =>
    refine decide_eq_false ?_
    rintro rfl
    have hvalid := h.isValid
    rw [← (Prod.mk.inj hscanned).1] at hvalid
    cases hvalid

/-- No printed token starts with a point. -/
theorem begins_of_printed {more text : Cursor} {ks : List Kind} (h : Printed more ks text) :
    begins (· = '.') text = false := by
  cases h with
  | nil hmore => exact hmore
  | apart hword _ _ _ => exact begins_of_writes hword _
  | joined hword _ _ => exact begins_of_writes hword _

theorem kindsOf_nil : kindsOf [] = [] := by
  rw [kindsOf, tokensFrom_of_endOfFile rfl]
  rfl

theorem kindsOf_spelled (hword : Spelled k word rest) (hk : k ≠ .endOfFile) :
    kindsOf (word ++ rest) = k :: kindsOf rest := by
  have htokens := tokensFrom_spelled .nil hword hk 0
  rw [List.nil_append] at htokens
  rw [kindsOf, htokens, List.map_cons, kinds_tokensFrom]

/-- **What is printed is scanned as it was to be, and then what follows.** -/
theorem kindsOf_printed {more text : Cursor} {ks : List Kind} (h : Printed more ks text) :
    kindsOf text = ks ++ kindsOf more := by
  induction h with
  | nil _ => rfl
  | @apart k word gap text ks hword hne hgap hlater ih =>
    obtain ⟨c, cs, rfl⟩ := List.exists_cons_of_ne_nil hne
    have hc := hgap c List.mem_cons_self
    have hpoint : begins (· = '.') (c :: cs ++ text) = false := (splits_eq rfl rfl).white hc
    have hspelled : Spelled k word (c :: cs ++ text) :=
      spelled_of_writes hword (clings_white hc word (cs ++ text)) hpoint
    rw [kindsOf_spelled hspelled hword.ne_endOfFile, kindsOf_trivia (trivia_of_white hgap), ih]
    rfl
  | joined hword hfree hlater ih =>
    have hspelled := spelled_of_writes hword hfree (begins_of_printed hlater)
    rw [kindsOf_spelled hspelled hword.ne_endOfFile, ih]
    rfl

/-- **Scanning undoes printing**: a text of tokens, with blanks between any two
that cling together and between others or not, is scanned as these tokens and
the end of the text. -/
theorem kinds_of_printed {ks : List Kind} {text : Cursor} (h : Printed [] ks text) :
    (tokens (String.ofList text)).withEnd.map (·.kind) = ks ++ [.endOfFile] := by
  have hkinds := kinds_tokensFrom (.start (String.ofList text))
  have hrest : (Place.start (String.ofList text)).rest = text := String.toList_ofList
  rw [hrest, kindsOf_printed h, kindsOf_nil, List.append_nil] at hkinds
  rw [tokens, Tokens.withEnd, List.map_append, hkinds]
  rfl

/-- A text in which only two operators have to be kept apart. -/
theorem kinds_of_printed_dense :
    Printed [] [.identifier "x", .punct .bangEq, .punct .eq,
        .float (Decimal.ofPointed ['1'] []).toBinary32, .punct .ampAmp, .punct .amp, .punct .slash,
        .punct .star, .keyword .kwIf] "x!==1.&&&/ *if".toList ∧
      (tokens "x!==1.&&&/ *if").withEnd.map (·.kind) =
        [.identifier "x", .punct .bangEq, .punct .eq,
          .float (Decimal.ofPointed ['1'] []).toBinary32, .punct .ampAmp, .punct .amp,
          .punct .slash, .punct .star, .keyword .kwIf, .endOfFile] := by
  have hprinted : Printed [] [.identifier "x", .punct .bangEq, .punct .eq,
      .float (Decimal.ofPointed ['1'] []).toBinary32, .punct .ampAmp, .punct .amp, .punct .slash,
      .punct .star, .keyword .kwIf] "x!==1.&&&/ *if".toList :=
    .joined (.identifier (by decide)) (by decide) <|
    .joined (.punct .bangEq) (by decide) <|
    .joined (.punct .eq) (by decide) <|
    .joined (.float (List.cons_ne_nil '1' []) (List.forall_mem_singleton.2 rfl)
      (List.forall_mem_nil _)) (by decide) <|
    .joined (.punct .ampAmp) (by decide) <|
    .joined (.punct .amp) (by decide) <|
    .apart (.punct .slash) (List.cons_ne_nil ' ' []) (List.forall_mem_singleton.2 rfl) <|
    .joined (.punct .star) (by decide) <|
    .joined (.keyword .kwIf) (by decide) <|
    .nil rfl
  exact ⟨hprinted, kinds_of_printed hprinted⟩

end Scan

end MiniC
