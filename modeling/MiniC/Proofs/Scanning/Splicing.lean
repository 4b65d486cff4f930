/-
  MiniC.Proofs.Scanning.Splicing

  **A token does not depend on what follows it**, as long as it ends there.

  Where a token ends, a blank may follow, or nothing, or a text that begins
  like the one that followed (`EndsAlike`): the token is scanned as before
  (`Spelled.splice`).  So a text can be taken apart into gaps and words, and
  put together again with other gaps between them, or other words.  A gap
  before a token is blanks and closed comments (`Trivia`), and any of these
  may stand there.  Before the end of the text, a line comment may also go
  without its newline (`Filler`).
-/
import Mathlib.Data.List.TakeWhile
import MiniC.Proofs.Scanning.Lines

namespace MiniC.Scan

open Text (Cursor)

variable {cs rest rest' : Cursor} {c : Char} {k : Kind}

/-! ## §1. Runs of characters -/

/-- The text begins with a character of a class. -/
def begins (p : Char → Bool) (cs : Cursor) : Bool := cs.head?.any p

/-- A run ends before a character of another class. -/
theorem begins_dropWhile (p : Char → Bool) (cs : Cursor) : begins p (cs.dropWhile p) = false := by
  have hhead := List.head?_dropWhile_not p cs
  cases hcs : cs.dropWhile p with
  | nil => rfl
  | cons c ds =>
    rw [hcs] at hhead
    exact hhead

/-- A run stops where what follows does not go on with it. -/
theorem takeWhile_run {p : Char → Bool} (hall : ∀ c ∈ cs, p c = true)
    (hrest : begins p rest = false) :
    (cs ++ rest).takeWhile p = cs ∧ (cs ++ rest).dropWhile p = rest := by
  rw [List.takeWhile_append_of_pos hall, List.dropWhile_append_of_pos hall]
  cases rest with
  | nil => exact ⟨List.append_nil cs, rfl⟩
  | cons c ds =>
    have hc : ¬ p c = true := fun h => Bool.false_ne_true (hrest.symm.trans h)
    rw [List.takeWhile_cons_of_neg hc, List.dropWhile_cons_of_neg hc]
    exact ⟨List.append_nil cs, rfl⟩

/-! ## §2. Blanks and comments -/

/-- A newline, or a blank within a line. -/
def isWhite (c : Char) : Bool := c = '\n' || isSpace c

/-- Blanks and comments, and nothing else, before `rest`.  A line comment goes
up to a newline or to the end of the text, a block comment to its first end
mark. -/
inductive Filler (rest : Cursor) : Cursor → Prop where
  | nil : Filler rest []
  | blank {c : Char} {gap : Cursor} (hc : isWhite c = true) (h : Filler rest gap) :
      Filler rest (c :: gap)
  | line {body gap : Cursor} (hbody : '\n' ∉ body)
      (hend : begins (· ≠ '\n') (gap ++ rest) = false) (h : Filler rest gap) :
      Filler rest ('/' :: '/' :: (body ++ gap))
  | block {body gap : Cursor} (hbody : ¬ ['*', '/'] <:+: body) (h : Filler rest gap) :
      Filler rest ('/' :: '*' :: (body ++ '*' :: '/' :: gap))

/-- Blanks and closed comments, and nothing else.  A line comment is closed by
the newline after it. -/
inductive Trivia : Cursor → Prop where
  | nil : Trivia []
  | blank {c : Char} {cs : Cursor} (hc : isWhite c = true) (h : Trivia cs) : Trivia (c :: cs)
  | line {body cs : Cursor} (hbody : '\n' ∉ body) (h : Trivia cs) :
      Trivia ('/' :: '/' :: (body ++ '\n' :: cs))
  | block {body cs : Cursor} (hbody : ¬ ['*', '/'] <:+: body) (h : Trivia cs) :
      Trivia ('/' :: '*' :: (body ++ '*' :: '/' :: cs))

/-- What keeps two tokens apart: a blank, and any blanks and comments. -/
inductive Separator : Cursor → Prop where
  | mk {white : Char} {gap : Cursor} (hwhite : isWhite white = true) (hgap : Trivia gap) :
      Separator (white :: gap)

theorem Separator.trivia {sep : Cursor} : Separator sep → Trivia sep
  | .mk hwhite hgap => .blank hwhite hgap

/-- A comment ends with its first end mark. -/
theorem afterComment?_append {body : Cursor} (h : ¬ ['*', '/'] <:+: body) (cs : Cursor) :
    afterComment? (body ++ '*' :: '/' :: cs) = some cs := by
  induction body with
  | nil => rfl
  | cons c body ih =>
    have hbody : ¬ ['*', '/'] <:+: body := fun hin => h (hin.trans (List.suffix_cons c _).isInfix)
    rw [List.cons_append, afterComment?]
    · exact ih hbody
    · rintro rest rfl heq
      cases body with
      | nil => cases heq
      | cons d body =>
        cases (List.cons.inj heq).1
        exact h ⟨[], body, rfl⟩

/-- A comment mark does not arise across one more character. -/
theorem not_mark_cons (hfirst : ∀ more, c = '*' → cs ≠ '/' :: more) (h : ¬ ['*', '/'] <:+: cs) :
    ¬ ['*', '/'] <:+: c :: cs := by
  intro hin
  rcases List.infix_cons_iff.1 hin with ⟨more, hmore⟩ | hin
  · obtain ⟨rfl, rfl⟩ := List.cons.inj hmore
    exact hfirst _ rfl rfl
  · exact h hin

/-- A comment that ends is a body without the mark, and the mark. -/
theorem exists_of_afterComment? (h : afterComment? cs = some rest) :
    ∃ body, ¬ ['*', '/'] <:+: body ∧ cs = body ++ '*' :: '/' :: rest := by
  fun_induction afterComment? cs with
  | case1 => cases h
  | case2 cs =>
    cases h
    exact ⟨[], by decide, rfl⟩
  | case3 c cs hend ih =>
    obtain ⟨body, hbody, rfl⟩ := ih h
    refine ⟨c :: body, not_mark_cons ?_ hbody, rfl⟩
    -- the mark would have ended the comment here
    rintro more hc rfl
    exact hend _ hc rfl

/-- A comment does not end if there is no mark. -/
theorem afterComment?_eq_none : afterComment? cs = none ↔ ¬ ['*', '/'] <:+: cs := by
  constructor
  · intro h
    fun_induction afterComment? cs with
    | case1 => decide
    | case2 cs => cases h
    | case3 c cs hend ih => exact not_mark_cons (fun more hc => hend more hc) (ih h)
  · intro hmark
    cases h : afterComment? cs with
    | none => rfl
    | some rest =>
      obtain ⟨body, _, rfl⟩ := exists_of_afterComment? h
      exact absurd ⟨body, rest, by simp⟩ hmark

/-- Blanks and closed comments may stand before anything. -/
theorem Trivia.filler {gap : Cursor} (h : Trivia gap) (rest : Cursor) : Filler rest gap := by
  induction h with
  | nil => exact .nil
  | blank hc _ ih => exact .blank hc ih
  | line hbody _ ih =>
    -- the newline that closes the comment is the first of the blanks after it
    exact .line hbody rfl (.blank rfl ih)
  | block hbody _ ih => exact .block hbody ih

/-- **Blanks and comments are passed over, and their newlines counted.** -/
theorem skip_filler {gap : Cursor} (h : Filler rest gap) (line : Nat) :
    skip .nothing (gap ++ rest) line = skip .nothing rest (line + gap.count '\n') := by
  induction h generalizing line with
  | nil => rfl
  | @blank c gap hc _ ih =>
    obtain ⟨line', hline, hskip⟩ := skip_blank hc (gap ++ rest) line
    have hcount : line' + gap.count '\n' = line + (c :: gap).count '\n' := by
      rw [← List.cons_append, List.count_append, List.count_append] at hline
      omega
    rw [List.cons_append, hskip, ih, hcount]
  | @line body gap hbody hend _ ih =>
    have hall : ∀ c ∈ body, decide (c ≠ '\n') = true := by
      intro c hc
      exact decide_eq_true fun heq => hbody (heq ▸ hc)
    have hcount : ('/' :: '/' :: (body ++ gap)).count '\n' = gap.count '\n' := by
      simp [List.count_eq_zero_of_not_mem hbody]
    show skip .lineComment (body ++ gap ++ rest) line = _
    rw [List.append_assoc, skip_lineComment, (takeWhile_run hall hend).2, ih, hcount]
  | @block body gap hbody _ ih =>
    have hclosed := skip_blockComment line (body ++ '*' :: '/' :: (gap ++ rest)) line
    rw [afterComment?_append hbody] at hclosed
    obtain ⟨line', hline, hskip⟩ := hclosed
    have hopen : skip .nothing ('/' :: '*' :: (body ++ '*' :: '/' :: gap) ++ rest) line =
        skip .nothing (gap ++ rest) line' := by
      show skip (.blockComment line) (body ++ '*' :: '/' :: gap ++ rest) line = _
      rw [List.append_assoc, List.cons_append, List.cons_append, hskip]
    have hcount : line' + gap.count '\n' =
        line + ('/' :: '*' :: (body ++ '*' :: '/' :: gap)).count '\n' := by
      simp [List.count_append] at hline ⊢
      omega
    rw [hopen, ih, hcount]

theorem skip_trivia {gap : Cursor} (h : Trivia gap) (rest : Cursor) (line : Nat) :
    skip .nothing (gap ++ rest) line = skip .nothing rest (line + gap.count '\n') :=
  skip_filler (h.filler rest) line

/-- **What stands before a token is blanks and comments.** -/
theorem exists_filler (cs : Cursor) :
    ∃ gap, Filler (fromToken cs) gap ∧ cs = gap ++ fromToken cs := by
  fun_induction fromToken cs with
  | case1 => exact ⟨[], .nil, rfl⟩
  | case2 cs ih =>
    obtain ⟨gap, hgap, hcs⟩ := ih
    have hbody : '\n' ∉ cs.takeWhile (· ≠ '\n') := fun hin => by
      simpa using List.mem_takeWhile_imp hin
    have hend := begins_dropWhile (· ≠ '\n') cs
    rw [hcs] at hend
    refine ⟨'/' :: '/' :: (cs.takeWhile (· ≠ '\n') ++ gap), .line hbody hend hgap, ?_⟩
    rw [List.cons_append, List.cons_append, List.append_assoc, ← hcs,
      List.takeWhile_append_dropWhile]
  | case3 cs rest hclosed ih =>
    obtain ⟨gap, hgap, hcs⟩ := ih
    obtain ⟨body, hbody, rfl⟩ := exists_of_afterComment? hclosed
    refine ⟨'/' :: '*' :: (body ++ '*' :: '/' :: gap), .block hbody hgap, ?_⟩
    rw [List.cons_append, List.cons_append, List.append_assoc, List.cons_append,
      List.cons_append, ← hcs]
  | case4 => exact ⟨[], .nil, rfl⟩
  | case5 c cs _ _ hc ih =>
    obtain ⟨gap, hgap, hcs⟩ := ih
    exact ⟨c :: gap, .blank hc hgap, by rw [List.cons_append, ← hcs]⟩
  | case6 => exact ⟨[], .nil, rfl⟩

/-! ## §3. Where a token ends -/

theorem isNameChar_of_isNameStart (h : isNameStart c = true) : isNameChar c = true := by
  rw [isNameStart, Bool.or_eq_true] at h
  rw [isNameChar]
  rcases h with h | h <;> simp [h]

/-- Names and numbers begin with different characters. -/
theorem isNumberChar_of_isNameStart (h : isNameStart c = true) : isNumberChar c = false := by
  by_cases hc : c = '_'
  · subst hc
    rfl
  · have hletter : isLetter c = true := by simpa [isNameStart, hc] using h
    have hdot : c ≠ '.' := by
      rintro rfl
      cases hletter
    simp only [isLetter, isNumberChar, Text.isDigit, Bool.or_eq_true, Bool.and_eq_true,
      decide_eq_true_eq, decide_eq_false hdot, Bool.or_false, Bool.and_eq_false_iff,
      decide_eq_false_iff_not, Char.le_def, UInt32.le_iff_toNat_le] at hletter ⊢
    grind

theorem eq_of_isWhite (h : isWhite c = true) :
    c = '\n' ∨ c = ' ' ∨ c = '\t' ∨ c = '\r' ∨ c = '\x0c' := by
  simpa [isWhite, isSpace, or_assoc] using h

/-- A token that ends before `rest` ends before `rest'` too. -/
inductive EndsAlike : (rest rest' : Cursor) → Prop where
  /-- The text ends. -/
  | ended (rest : Cursor) : EndsAlike rest []
  /-- A blank follows. -/
  | blank (rest : Cursor) {c : Char} {cs : Cursor} (hc : isWhite c = true) :
      EndsAlike rest (c :: cs)
  /-- What follows begins with the same character. -/
  | same (c : Char) (cs cs' : Cursor) : EndsAlike (c :: cs) (c :: cs')
  /-- A word follows, as before. -/
  | word {c d : Char} (cs ds : Cursor) (hc : isNameStart c = true) (hd : isNameStart d = true) :
      EndsAlike (c :: cs) (d :: ds)

theorem EndsAlike.rfl : EndsAlike rest rest := by
  cases rest with
  | nil => exact .ended []
  | cons c cs => exact .same c cs cs

/-- The class has no blanks, and all first characters of words or none. -/
structure Splits (p : Char → Bool) : Prop where
  white : ∀ {c}, isWhite c = true → p c = false
  word : ∀ {c d}, isNameStart c = true → isNameStart d = true → p c = p d

/-- What did not go on with a run does not after splicing. -/
theorem EndsAlike.begins {p : Char → Bool} (hp : Splits p) (h : EndsAlike rest rest')
    (hrest : begins p rest = false) : begins p rest' = false := by
  cases h with
  | ended => exact Eq.refl false
  | blank _ hc => exact hp.white hc
  | same => exact hrest
  | word _ _ hc hd => exact (hp.word hd hc).trans hrest

theorem splits_isNumberChar : Splits isNumberChar where
  white hc := by rcases eq_of_isWhite hc with rfl | rfl | rfl | rfl | rfl <;> rfl
  word hc hd := by rw [isNumberChar_of_isNameStart hc, isNumberChar_of_isNameStart hd]

theorem splits_isNameChar : Splits isNameChar where
  white hc := by rcases eq_of_isWhite hc with rfl | rfl | rfl | rfl | rfl <;> rfl
  word hc hd := by rw [isNameChar_of_isNameStart hc, isNameChar_of_isNameStart hd]

/-- Any character but a blank and the first of a word. -/
theorem splits_eq {d : Char} (hwhite : isWhite d = false) (hname : isNameStart d = false) :
    Splits (· = d) where
  white hc := decide_eq_false (by
    rintro rfl
    rw [hwhite] at hc
    cases hc)
  word hc hd := by
    rw [decide_eq_false (by rintro rfl; rw [hname] at hc; cases hc),
      decide_eq_false (by rintro rfl; rw [hname] at hd; cases hd)]

/-! ## §4. Words and what follows them -/

/-- The text starts with a token: not with a blank, nor with a comment. -/
inductive StartsToken : Cursor → Prop where
  | intro {c : Char} {cs : Cursor} (white : isWhite c = false)
      (comment : c = '/' → begins (· = '/') cs = false ∧ begins (· = '*') cs = false) :
      StartsToken (c :: cs)

/-- Nothing is skipped before a token. -/
theorem skip_of_startsToken (h : StartsToken cs) (line : Nat) :
    skip .nothing cs line = ⟨⟨cs, line⟩, none⟩ := by
  cases h with
  | @intro c cs hwhite hcomment =>
    obtain ⟨hn, hspace⟩ := Bool.or_eq_false_iff.1 hwhite
    rw [skip, if_neg (by rw [hspace]; exact Bool.false_ne_true)]
    · exact of_decide_eq_false hn
    · rintro ds rfl rfl
      exact absurd (hcomment rfl).1.symm Bool.false_ne_true
    · rintro ds rfl rfl
      exact absurd (hcomment rfl).2.symm Bool.false_ne_true

/-- What is neither blank nor a comment starts a token. -/
theorem startsToken_of_ne (hwhite : isWhite c = false) (hline : ∀ ds, c = '/' → cs ≠ '/' :: ds)
    (hblock : ∀ ds, c = '/' → cs ≠ '*' :: ds) : StartsToken (c :: cs) := by
  refine .intro hwhite fun hc => ?_
  cases cs with
  | nil => exact ⟨rfl, rfl⟩
  | cons d ds =>
    refine ⟨decide_eq_false ?_, decide_eq_false ?_⟩
    · rintro rfl
      exact hline ds hc rfl
    · rintro rfl
      exact hblock ds hc rfl

/-- Blanks and comments are skipped up to a token. -/
theorem startsToken_of_skip {inside : Inside} {line : Nat}
    (h : (skip inside cs line).after.rest = c :: rest) : StartsToken (c :: rest) := by
  fun_induction skip inside cs line
  case case6 d ds line hn hline hblock hspace =>
    cases h
    exact startsToken_of_ne (by simp [isWhite, hspace, show c ≠ '\n' from hn]) hline hblock
  all_goals grind

/-- Before a token, every comment is closed. -/
theorem Filler.trivia {gap : Cursor} (h : Filler rest gap) (hrest : StartsToken rest) :
    Trivia gap := by
  induction h with
  | nil => exact .nil
  | blank hc _ ih => exact .blank hc ih
  | @line body gap hbody hend _ ih =>
    cases gap with
    | nil =>
      cases hrest with
      | intro hwhite _ =>
        have heq := not_not.1 (of_decide_eq_false hend)
        rw [heq] at hwhite
        cases hwhite
    | cons c gap =>
      have heq : c = '\n' := not_not.1 (of_decide_eq_false hend)
      subst heq
      cases ih with
      | blank _ hgap => exact .line hbody hgap
  | block hbody _ ih => exact .block hbody ih

/-- A token of the kind is written as `word` before `rest`. -/
inductive Spelled (k : Kind) : (word rest : Cursor) → Prop where
  | intro {c : Char} {cs rest : Cursor} (starts : StartsToken (c :: cs ++ rest))
      (scanned : lexeme c (cs ++ rest) = (k, rest)) : Spelled k (c :: cs) rest

theorem eq_nil_of_pair {k' : Kind} (h : (k', cs ++ rest) = (k, rest)) : k' = k ∧ cs = [] := by
  obtain ⟨hk, hrest⟩ := Prod.mk.inj h
  exact ⟨hk, List.append_left_eq_self.1 hrest⟩

theorem eat?_of_begins (h : begins (· = c) cs = false) : Cursor.eat? c cs = none := by
  cases cs with
  | nil => rfl
  | cons d ds => exact if_neg (of_decide_eq_false h)

/-- A sign is read the same before other text that ends it. -/
theorem longer_splice {long short : Punct} (hc : Splits (· = c))
    (h : longer c long short (cs ++ rest) = (k, rest)) (hend : EndsAlike rest rest') :
    longer c long short (cs ++ rest') = (k, rest') := by
  cases cs with
  | nil =>
    cases hb : begins (· = c) rest with
    | false =>
      rw [List.nil_append, longer, eat?_of_begins hb] at h
      rw [List.nil_append, longer, eat?_of_begins (hend.begins hc hb), ← (Prod.mk.inj h).1]
    | true =>
      -- the longer operator would end further on
      cases rest with
      | nil => cases hb
      | cons d ds =>
        cases of_decide_eq_true hb
        rw [List.nil_append, longer, Cursor.eat?, if_pos rfl] at h
        exact absurd (Prod.mk.inj h).2.symm (List.cons_ne_self _ _)
  | cons d ds =>
    by_cases hd : d = c
    · subst hd
      rw [longer, List.cons_append, Cursor.eat?, if_pos rfl] at h ⊢
      obtain ⟨rfl, rfl⟩ := eq_nil_of_pair h
      rfl
    · rw [longer, List.cons_append, Cursor.eat?, if_neg hd] at h
      have hpair : (Kind.punct short, d :: ds ++ rest) = (k, rest) := h
      exact absurd (eq_nil_of_pair hpair).2 (List.cons_ne_nil d ds)

/-- A run is the same before other text that ends it. -/
theorem takeWhile_splice {p : Char → Bool} (hp : Splits p) (h : (cs ++ rest).dropWhile p = rest)
    (hend : EndsAlike rest rest') :
    (cs ++ rest).takeWhile p = cs ∧ (cs ++ rest').takeWhile p = cs ∧
      (cs ++ rest').dropWhile p = rest' := by
  have hrun : (cs ++ rest).takeWhile p = cs := by
    have happend := List.takeWhile_append_dropWhile (p := p) (l := cs ++ rest)
    rw [h] at happend
    exact List.append_cancel_right happend
  have hall : ∀ c ∈ cs, p c = true := by
    intro c hc
    rw [← hrun] at hc
    exact List.mem_takeWhile_imp hc
  have hrest : begins p rest = false := by
    rw [← h]
    exact begins_dropWhile p _
  exact ⟨hrun, takeWhile_run hall (hend.begins hp hrest)⟩

/-- A literal that is right has its quote. -/
theorem eq_cons_of_closeQuote (h : (closeQuote c cs).1.isValid = true) :
    ∃ rest, cs = '\'' :: rest := by
  unfold closeQuote at h
  split at h
  · exact ⟨_, Cursor.eq_cons_of_eat? ‹_›⟩
  · cases h

/-- An escape that is right does not depend on what follows. -/
theorem exists_escape (h : (escape cs).1.isValid = true) :
    ∃ word, cs = word ++ (escape cs).2 ∧ ∀ rest, escape (word ++ rest) = ((escape cs).1, rest) := by
  revert h
  fun_cases escape cs with
  | case1 => exact fun h => absurd h Bool.false_ne_true
  | case2 cs =>
    intro h
    obtain ⟨rest, rfl⟩ := eq_cons_of_closeQuote h
    exact ⟨['n', '\''], rfl, fun _ => rfl⟩
  | case3 cs =>
    intro h
    obtain ⟨rest, rfl⟩ := eq_cons_of_closeQuote h
    exact ⟨['r', '\''], rfl, fun _ => rfl⟩
  | case4 cs =>
    intro h
    obtain ⟨rest, rfl⟩ := eq_cons_of_closeQuote h
    exact ⟨['0', '\''], rfl, fun _ => rfl⟩
  | case5 cs =>
    intro h
    obtain ⟨rest, rfl⟩ := eq_cons_of_closeQuote h
    exact ⟨['\\', '\''], rfl, fun _ => rfl⟩
  | case6 cs => exact fun h => absurd h Bool.false_ne_true
  | case7 c cs => exact fun h => absurd h Bool.false_ne_true

/-- A valid character literal ends with its quote, whatever follows. -/
theorem exists_character (h : (character cs).1.isValid = true) :
    ∃ word, cs = word ++ (character cs).2 ∧
      ∀ rest, character (word ++ rest) = ((character cs).1, rest) := by
  revert h
  fun_cases character cs with
  | case1 => exact fun h => absurd h Bool.false_ne_true
  | case2 cs =>
    intro h
    obtain ⟨word, hcs, hword⟩ := exists_escape h
    exact ⟨'\\' :: word, congrArg _ hcs, hword⟩
  | case3 cs => exact fun h => absurd h Bool.false_ne_true
  | case4 cs => exact fun h => absurd h Bool.false_ne_true
  | case5 c cs hslash hn hquote =>
    intro h
    obtain ⟨rest, rfl⟩ := eq_cons_of_closeQuote h
    refine ⟨[c, '\''], rfl, fun rest => ?_⟩
    show character (c :: '\'' :: rest) = _
    rw [character]
    · rfl
    · exact hslash
    · exact hn
    · exact hquote

/-- A token made of a run is read the same. -/
theorem run_splice {p : Char → Bool} {f : List Char → Kind} (hp : Splits p)
    (h : (f ((cs ++ rest).takeWhile p), (cs ++ rest).dropWhile p) = (k, rest))
    (hend : EndsAlike rest rest') :
    (f ((cs ++ rest').takeWhile p), (cs ++ rest').dropWhile p) = (k, rest') := by
  obtain ⟨hkind, hrest⟩ := Prod.mk.inj h
  obtain ⟨hrun, hrun', hrest'⟩ := takeWhile_splice hp hrest hend
  rw [hrun', hrest', ← hkind, hrun]

/-- **A valid token is scanned as before if it ends where it did.** -/
theorem lexeme_splice (hk : k.isValid = true) (h : lexeme c (cs ++ rest) = (k, rest))
    (hend : EndsAlike rest rest') : lexeme c (cs ++ rest') = (k, rest') := by
  have hsingle {k' : Kind} (h : (k', cs ++ rest) = (k, rest)) : (k', cs ++ rest') = (k, rest') := by
    obtain ⟨rfl, rfl⟩ := eq_nil_of_pair h
    rfl
  have hcharacter (h : character (cs ++ rest) = (k, rest)) :
      character (cs ++ rest') = (k, rest') := by
    have hvalid : (character (cs ++ rest)).1.isValid = true := by rw [h]; exact hk
    obtain ⟨word, hcs, hword⟩ := exists_character hvalid
    rw [h] at hcs hword
    rw [List.append_cancel_right hcs]
    exact hword rest'
  unfold lexeme at h
  split at h
  case h_13 | h_16 | h_17 | h_18 => exact longer_splice (splits_eq rfl rfl) h hend
  case h_14 | h_15 => exact longer_splice (splits_eq rfl rfl) h hend
  case h_19 => exact hcharacter h
  case h_20 =>
    rw [lexeme]
    · split at h
      · rw [if_pos ‹_›]
        exact run_splice (f := fun run => number (_ :: run)) splits_isNumberChar h hend
      · rw [if_neg ‹_›]
        split at h
        · rw [if_pos ‹_›]
          exact run_splice (f := fun run => word (_ :: run)) splits_isNameChar h hend
        · rw [← (Prod.mk.inj h).1] at hk
          cases hk
    all_goals assumption
  all_goals exact hsingle h

/-- **A valid token is spelled in the same way before any text that lets it
end.** -/
theorem Spelled.splice {word : Cursor} (hk : k.isValid = true) (h : Spelled k word rest)
    (hend : EndsAlike rest rest') : Spelled k word rest' := by
  cases h with
  | @intro c cs rest hstarts hscanned =>
    refine .intro ?_ (lexeme_splice hk hscanned hend)
    cases hstarts with
    | intro hwhite hcomment =>
      refine .intro hwhite fun hc => ?_
      cases cs with
      | nil =>
        exact ⟨hend.begins (splits_eq rfl rfl) (hcomment hc).1,
          hend.begins (splits_eq rfl rfl) (hcomment hc).2⟩
      | cons d ds => exact hcomment hc

/-! ## §5. A text is gaps and words -/

/-- The characters of a text before its final part `rest`. -/
def upTo (cs rest : Cursor) : Cursor := cs.take (cs.length - rest.length)

theorem upTo_append (front rest : Cursor) : upTo (front ++ rest) rest = front := by
  simp [upTo]

theorem upTo_nil (cs : Cursor) : upTo cs [] = cs := List.take_length

theorem upTo_append_of_suffix (h : rest <:+ cs) : upTo cs rest ++ rest = cs := by
  obtain ⟨front, rfl⟩ := h
  rw [upTo_append]

/-- The blanks and comments before the token at a place. -/
def Place.gap (p : Place) : Cursor := upTo p.rest (fromToken p.rest)

/-- The characters of the token at a place. -/
def Place.word (p : Place) : Cursor := upTo (fromToken p.rest) (scan p).2.rest

/-- **A token after a gap is the next token.** -/
theorem scan_spelled {gap word : Cursor} (hgap : Filler (word ++ rest) gap)
    (hword : Spelled k word rest) (line : Nat) :
    scan ⟨gap ++ (word ++ rest), line⟩ =
      (⟨k, line + gap.count '\n'⟩, ⟨rest, line + gap.count '\n'⟩) := by
  cases hword with
  | @intro c cs rest hstarts hscanned =>
    have hskip := skip_filler hgap line
    rw [skip_of_startsToken hstarts] at hskip
    rw [scan, hskip]
    show ((⟨(lexeme c (cs ++ rest)).1, _⟩ : Token), (⟨(lexeme c (cs ++ rest)).2, _⟩ : Place)) = _
    rw [hscanned]

/-- **Before a valid token stands a gap, and then its word.** -/
theorem spelled_of_scan {p : Place} (hvalid : (scan p).1.kind.isValid = true)
    (hne : (scan p).1.kind ≠ .endOfFile) :
    Trivia p.gap ∧ Spelled (scan p).1.kind p.word (scan p).2.rest ∧
      p.rest = p.gap ++ (p.word ++ (scan p).2.rest) := by
  have hword : p.word = upTo (fromToken p.rest) (scan p).2.rest := rfl
  have hscan := scanned p
  generalize (scan p).1 = t at hvalid hne hscan ⊢
  generalize (scan p).2 = q at hword hscan ⊢
  cases hscan with
  | comment _ => cases hvalid
  | ended _ _ => exact absurd rfl hne
  | @lexeme c cs hclosed hrest =>
    have htoken : fromToken p.rest = c :: cs := by
      rcases skip_nothing p.rest p.line with ⟨_, h⟩ | ⟨start, h, _⟩
      · rw [← h, hrest]
      · rw [hclosed] at h
        cases h
    obtain ⟨gap, hfiller, hcs⟩ := exists_filler p.rest
    rw [htoken] at hfiller hcs
    have hgapeq : p.gap = gap := by
      rw [Place.gap, htoken, hcs, upTo_append]
    have hstarts := startsToken_of_skip hrest
    have hgap := hfiller.trivia hstarts
    cases hlexeme : Scan.lexeme c cs with
    | mk k rest =>
      obtain ⟨front, rfl⟩ : ∃ front, front ++ rest = cs := by
        have hsuffix := suffix_lexeme c cs
        rwa [hlexeme] at hsuffix
      have hwordeq : p.word = c :: front := by
        rw [hword, htoken, hlexeme]
        exact upTo_append (c :: front) rest
      rw [hgapeq, hwordeq]
      refine ⟨hgap, .intro hstarts hlexeme, ?_⟩
      rw [hcs]
      rfl

/-- A token stands on the line where the gap before it ends. -/
theorem scan_eq_of_valid {p : Place} (hvalid : (scan p).1.kind.isValid = true)
    (hne : (scan p).1.kind ≠ .endOfFile) :
    (scan p).1 = ⟨(scan p).1.kind, p.line + p.gap.count '\n'⟩ ∧
      (scan p).2 = ⟨(scan p).2.rest, p.line + p.gap.count '\n'⟩ := by
  obtain ⟨hgap, hword, hrest⟩ := spelled_of_scan hvalid hne
  have hscan := scan_spelled (hgap.filler _) hword p.line
  rw [← hrest] at hscan
  exact Prod.mk.inj hscan

/-- A gap and a spelled word are one token before the others. -/
theorem tokensFrom_spelled {gap word : Cursor} (hgap : Trivia gap) (hword : Spelled k word rest)
    (hk : k ≠ .endOfFile) (line : Nat) :
    tokensFrom ⟨gap ++ (word ++ rest), line⟩ =
      ⟨⟨k, line + gap.count '\n'⟩ :: (tokensFrom ⟨rest, line + gap.count '\n'⟩).list,
        (tokensFrom ⟨rest, line + gap.count '\n'⟩).endLine⟩ := by
  have hscan := scan_spelled (hgap.filler _) hword line
  rw [tokensFrom_of_ne (by rw [hscan]; exact hk), hscan]

/-- A gap moves the tokens after it down, and that is all. -/
theorem scan_trivia {gap : Cursor} (h : Trivia gap) (rest : Cursor) (line : Nat) :
    scan ⟨gap ++ rest, line⟩ = scan ⟨rest, line + gap.count '\n'⟩ := by
  rw [scan, scan, skip_trivia h]

theorem tokensFrom_congr {p q : Place} (h : scan p = scan q) : tokensFrom p = tokensFrom q := by
  by_cases hend : (scan p).1.kind = .endOfFile
  · rw [tokensFrom_of_endOfFile hend, tokensFrom_of_endOfFile (h ▸ hend), h]
  · have hend' : (scan q).1.kind ≠ .endOfFile := h ▸ hend
    rw [tokensFrom_of_ne hend, h, ← tokensFrom_of_ne hend']

theorem EndsAlike.append (h : EndsAlike rest rest') (front : Cursor) :
    EndsAlike (front ++ rest) (front ++ rest') := by
  cases front with
  | nil => exact h
  | cons c front => exact .same c _ _

/-- A text with a token does not end there. -/
theorem ne_endOfFile_of_lt {p : Place} {n : Nat} (h : n < (tokensFrom p).list.length) :
    (scan p).1.kind ≠ .endOfFile := by
  intro hend
  rw [tokensFrom_of_endOfFile hend] at h
  exact Nat.not_lt_zero n h

/-- **The text after some tokens can be exchanged.**  They stay as they are, if
the last of them still ends where it did. -/
theorem tokensFrom_splice {p : Place} {n : Nat}
    (hvalid : ∀ t ∈ (tokensFrom p).list.take n, t.kind.isValid = true)
    (hn : n ≤ (tokensFrom p).list.length) (hend : EndsAlike (p.beyond n).rest rest) :
    (tokensFrom ⟨upTo p.rest (p.beyond n).rest ++ rest, p.line⟩).list =
      (tokensFrom p).list.take n ++ (tokensFrom ⟨rest, (p.beyond n).line⟩).list := by
  induction n generalizing p with
  | zero =>
    have hfront : upTo p.rest p.rest = [] := upTo_append [] p.rest
    rw [Place.beyond, hfront]
    rfl
  | succ n ih =>
    have hne := ne_endOfFile_of_lt hn
    rw [tokensFrom_of_ne hne] at hvalid hn ⊢
    have hkind := hvalid _ List.mem_cons_self
    obtain ⟨hgap, hword, hrest⟩ := spelled_of_scan hkind hne
    obtain ⟨htoken, hafter⟩ := scan_eq_of_valid hkind hne
    -- up to the cut stand the gap and the word, and what the other tokens take
    obtain ⟨front, hfront⟩ := suffix_beyond (scan p).2 n
    have hcut : upTo p.rest (p.beyond (n + 1)).rest ++ rest =
        p.gap ++ (p.word ++ (front ++ rest)) := by
      rw [hrest, Place.beyond, ← hfront, ← List.append_assoc, ← List.append_assoc, upTo_append]
      simp only [List.append_assoc]
    have hword' : Spelled (scan p).1.kind p.word (front ++ rest) := by
      rw [← hfront] at hword
      exact hword.splice hkind (hend.append front)
    have hlater := ih (fun t ht => hvalid t (List.mem_cons_of_mem _ ht))
      (Nat.le_of_succ_le_succ hn) hend
    rw [← hfront, upTo_append] at hlater
    have hline : (scan p).2.line = p.line + p.gap.count '\n' := by rw [hafter]
    rw [hcut, tokensFrom_spelled hgap hword' hne, ← hline, hlater]
    rw [hline, ← htoken]
    rfl

/-! ## §6. Lines are only counted -/

/-- Further down the text, by so many lines. -/
def Inside.down (d : Nat) : Inside → Inside
  | .blockComment start => .blockComment (start + d)
  | inside => inside

@[inherit_doc Inside.down]
def Place.down (d : Nat) (p : Place) : Place := ⟨p.rest, p.line + d⟩

@[inherit_doc Inside.down]
def Gap.down (d : Nat) (g : Gap) : Gap := ⟨g.after.down d, g.unclosed.map (· + d)⟩

theorem skip_down (d : Nat) (inside : Inside) (cs : Cursor) (line : Nat) :
    skip (inside.down d) cs (line + d) = (skip inside cs line).down d := by
  fun_induction skip inside cs line <;>
    simp_all [skip, Inside.down, Gap.down, Place.down, Nat.add_right_comm]

/-- Reading further down shifts lines and nothing else. -/
theorem scan_down (d : Nat) (p : Place) :
    scan (p.down d) = (⟨(scan p).1.kind, (scan p).1.line + d⟩, (scan p).2.down d) := by
  have hskip : skip .nothing (p.down d).rest (p.down d).line =
      (skip .nothing p.rest p.line).down d :=
    skip_down d .nothing p.rest p.line
  unfold scan
  rw [hskip]
  generalize skip .nothing p.rest p.line = g
  obtain ⟨⟨rest, line⟩, _ | start⟩ := g
  · cases rest <;> rfl
  · rfl

/-- Further down, the kinds of tokens are the same. -/
theorem kinds_down (d : Nat) (p : Place) :
    (tokensFrom (p.down d)).list.map (·.kind) = (tokensFrom p).list.map (·.kind) := by
  induction p using tokensFrom.induct with
  | case1 p t after hscan ht =>
    have hend : (scan p).1.kind = .endOfFile := by rw [hscan]; exact ht
    have hend' : (scan (p.down d)).1.kind = .endOfFile := by rw [scan_down]; exact hend
    rw [tokensFrom_of_endOfFile hend, tokensFrom_of_endOfFile hend']
  | case2 p t after hscan ht _ ih =>
    have hne : (scan p).1.kind ≠ .endOfFile := by rw [hscan]; exact ht
    have hne' : (scan (p.down d)).1.kind ≠ .endOfFile := by rw [scan_down]; exact hne
    rw [tokensFrom_of_ne hne, tokensFrom_of_ne hne', scan_down, List.map_cons, List.map_cons]
    rw [hscan, ih]

/-- The kinds of the tokens of a text, whatever line it starts on. -/
def kindsOf (cs : Cursor) : List Kind := (tokensFrom ⟨cs, 0⟩).list.map (·.kind)

/-- **The kinds of the tokens do not depend on the line on which the text
starts.** -/
theorem kinds_tokensFrom (p : Place) : (tokensFrom p).list.map (·.kind) = kindsOf p.rest := by
  have hdown := kinds_down p.line ⟨p.rest, 0⟩
  rwa [Place.down, Nat.zero_add] at hdown

theorem kindsOf_trivia {gap : Cursor} (h : Trivia gap) (rest : Cursor) :
    kindsOf (gap ++ rest) = kindsOf rest := by
  rw [kindsOf, tokensFrom_congr (scan_trivia h rest 0), kinds_tokensFrom]

variable {p : Place} {n : Nat} (hvalid : ∀ t ∈ (tokensFrom p).list.take n, t.kind.isValid = true)
  (hn : n ≤ (tokensFrom p).list.length)

include hvalid hn

/-- The kinds stay up to the cut, and those of the new text follow. -/
theorem kindsOf_splice (hend : EndsAlike (p.beyond n).rest rest) :
    kindsOf (upTo p.rest (p.beyond n).rest ++ rest) =
      (kindsOf p.rest).take n ++ kindsOf rest := by
  have hkinds := kinds_tokensFrom ⟨upTo p.rest (p.beyond n).rest ++ rest, p.line⟩
  rw [tokensFrom_splice hvalid hn hend, List.map_append, List.map_take, kinds_tokensFrom,
    kinds_tokensFrom] at hkinds
  exact hkinds.symm

/-- The kinds after the cut are those of the text there. -/
theorem kindsOf_beyond : kindsOf p.rest = (kindsOf p.rest).take n ++ kindsOf (p.beyond n).rest := by
  have hsplice := kindsOf_splice hvalid hn .rfl
  rwa [upTo_append_of_suffix (suffix_beyond p n)] at hsplice

section

variable {gap after : Cursor} (hgap : Trivia gap) (hrest : (p.beyond n).rest = gap ++ after)

include hgap hrest

/-- **Between two tokens a text may go on with another**, outside of comments
and after a blank. -/
theorem kindsOf_cut {sep : Cursor} (hsep : Separator sep) (more : Cursor) :
    kindsOf (upTo p.rest after ++ (sep ++ more)) = (kindsOf p.rest).take n ++ kindsOf more := by
  have hall : p.rest = (upTo p.rest (p.beyond n).rest ++ gap) ++ after := by
    rw [List.append_assoc, ← hrest]
    exact (upTo_append_of_suffix (suffix_beyond p n)).symm
  have hfront : upTo p.rest after = upTo p.rest (p.beyond n).rest ++ gap :=
    (congrArg (upTo · after) hall).trans (upTo_append _ _)
  have hend : EndsAlike (p.beyond n).rest (gap ++ (sep ++ more)) := by
    rw [hrest]
    cases hsep with
    | mk hwhite _ => exact EndsAlike.append (.blank _ hwhite) gap
  rw [hfront, List.append_assoc, kindsOf_splice hvalid hn hend, kindsOf_trivia hgap,
    kindsOf_trivia hsep.trivia]

/-- The kinds after a cut between two tokens. -/
theorem kindsOf_after : kindsOf after = (kindsOf p.rest).drop n := by
  have hall := kindsOf_beyond hvalid hn
  rw [hrest, kindsOf_trivia hgap] at hall
  exact List.append_cancel_left (hall.symm.trans (List.take_append_drop n _).symm)

end

end MiniC.Scan
