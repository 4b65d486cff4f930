/-
  MiniC.Proofs.Nesting.Forms

  **The layout of a form is its nesting.**

  The parentheses of a text are counted from its start (`opened`).  In the
  text of a form each line is indented by the parentheses open before it, and
  the line that closes a group by one less (`nests_rows`).

  The text is read back line by line (`Form.ofText?`), with the groups that are
  still open on a stack.  Indentation is dropped: a parenthesis alone closes a
  group, a line that closes what it opens is one of its own, and one that
  leaves its first parenthesis open begins a group.
-/
import MiniC.Text.Lines
import MiniC.Wasm.Form

namespace MiniC.Wasm

open Text (splitLines)

variable {n k : Nat} {cs : List Char}

/-! ## §1. Parentheses -/

/-- How many parentheses are open after a character if `n` are open before it. -/
def openedBy (n : Nat) : Char → Option Nat
  | '(' => some (n + 1)
  | ')' => if n = 0 then none else some (n - 1)
  | _ => some n

/-- How many parentheses are open after some characters if `n` are open before
them.  None may be closed that is not open. -/
def opened (n : Nat) (cs : List Char) : Option Nat := cs.foldlM openedBy n

theorem opened_cons (n : Nat) (c : Char) (cs : List Char) :
    opened n (c :: cs) = (openedBy n c).bind (opened · cs) := List.foldlM_cons

theorem opened_append (n : Nat) (cs ds : List Char) :
    opened n (cs ++ ds) = (opened n cs).bind (opened · ds) := List.foldlM_append

theorem openedBy_add {c : Char} (h : openedBy n c = some k) (m : Nat) :
    openedBy (n + m) c = some (k + m) := by
  unfold openedBy at h ⊢
  split at h <;> simp_all <;> omega

/-- More parentheses that are open before stay open. -/
theorem opened_add (h : opened n cs = some k) (m : Nat) : opened (n + m) cs = some (k + m) := by
  induction cs generalizing n with
  | nil =>
    cases h
    rfl
  | cons c cs ih =>
    rw [opened_cons] at h ⊢
    obtain ⟨j, hj, h⟩ := Option.bind_eq_some_iff.1 h
    rw [openedBy_add hj m]
    exact ih h

/-- Some number is open after the first part of a text, too. -/
theorem opened_left {ds : List Char} (h : opened n (cs ++ ds) = some k) :
    ∃ m, opened n cs = some m := by
  rw [opened_append] at h
  obtain ⟨m, hm, _⟩ := Option.bind_eq_some_iff.1 h
  exact ⟨m, hm⟩

/-- A text without parentheses. -/
theorem opened_of_forall (h : ∀ c ∈ cs, c ≠ '(' ∧ c ≠ ')') (n : Nat) : opened n cs = some n := by
  induction cs with
  | nil => rfl
  | cons c cs ih =>
    have hc := h c List.mem_cons_self
    have hkeep : openedBy n c = some n := by
      unfold openedBy
      split <;> simp_all
    rw [opened_cons, hkeep]
    exact ih fun d hd => h d (List.mem_cons_of_mem c hd)

/-- A part of a line, with `n` parentheses open before it and `k` after it. -/
structure Inline (n k : Nat) (cs : List Char) : Prop where
  newline : '\n' ∉ cs
  opened : opened n cs = some k

namespace Inline

variable {n k m : Nat} {cs ds : List Char}

theorem append (h : Inline n k cs) (h' : Inline k m ds) : Inline n m (cs ++ ds) :=
  ⟨List.not_mem_append h.newline h'.newline, by rw [opened_append, h.opened]; exact h'.opened⟩

theorem add (h : Inline n k cs) (m : Nat) : Inline (n + m) (k + m) cs :=
  ⟨h.newline, opened_add h.opened m⟩

/-- What closes all that it opens can stand at any depth. -/
theorem anywhere (h : Inline 0 0 cs) (n : Nat) : Inline n n cs := by
  have hadd := h.add n
  rwa [Nat.zero_add] at hadd

end Inline

/-- The space in front of a line that `n` groups enclose. -/
def spaces (n : Nat) : List Char := List.replicate (4 * n) ' '

/-- Blanks open and close nothing. -/
theorem inline_spaces (n k : Nat) : Inline k k (spaces n) := by
  have hspace : ∀ c ∈ spaces n, c = ' ' := fun c => List.eq_of_mem_replicate
  refine ⟨fun hmem => ?_, opened_of_forall (fun c hc => ?_) k⟩
  · exact absurd (hspace _ hmem) (by decide)
  · rw [hspace c hc]
    decide

/-- Indentation is dropped. -/
theorem dropWhile_spaces (n : Nat) (h : cs.head? ≠ some ' ') :
    (spaces n ++ cs).dropWhile (· = ' ') = cs := by
  have hspaces : ∀ c ∈ spaces n, (decide (c = ' ')) = true := fun c hc =>
    decide_eq_true (List.eq_of_mem_replicate hc)
  rw [List.dropWhile_append_of_pos hspaces]
  cases cs with
  | nil => rfl
  | cons c cs => exact List.dropWhile_cons_of_neg fun hc => h (congrArg some (of_decide_eq_true hc))

/-! ## §2. Lines -/

/-- Lines with a newline after each. -/
def unlines (ls : List (List Char)) : List Char := ls.flatMap (· ++ ['\n'])

/-- A line ends at the first break. -/
theorem splitLines_newline {l : List Char} (h : '\n' ∉ l) (cs : List Char) :
    splitLines (l ++ '\n' :: cs) = l :: splitLines cs := by
  induction l with
  | nil => rfl
  | cons c l ih =>
    have hc : c ≠ '\n' := fun hc => h (hc ▸ List.mem_cons_self)
    rw [List.cons_append, splitLines, if_neg hc, ih fun hl => h (List.mem_cons_of_mem c hl)]

/-- The lines of a text are those it was made of. -/
theorem splitLines_unlines {ls : List (List Char)} (h : ∀ l ∈ ls, '\n' ∉ l) :
    splitLines (unlines ls) = ls ++ [[]] := by
  induction ls with
  | nil => rfl
  | cons l ls ih =>
    rw [unlines, List.flatMap_cons, List.append_assoc, List.singleton_append,
      splitLines_newline (h l List.mem_cons_self)]
    exact congrArg (l :: ·) (ih fun l' hl' => h l' (List.mem_cons_of_mem l hl'))

/-- The line is indented by `n` groups, by one less if it closes one. -/
def Indented (n : Nat) (l : List Char) : Prop :=
  ∃ text, l = spaces (if text = [')'] then n - 1 else n) ++ text ∧ text.head? ≠ some ' '

/-- Lines inside `base` groups, with `n` more parentheses open before them and
`k` more after them. -/
inductive Nests (base : Nat) : Nat → List (List Char) → Nat → Prop where
  | nil (n : Nat) : Nests base n [] n
  | cons {n k m : Nat} {l : List Char} {ls : List (List Char)} (hindent : Indented (base + n) l)
      (hl : Inline n k l) (hls : Nests base k ls m) : Nests base n (l :: ls) m

namespace Nests

variable {base n k m : Nat} {ls ls' : List (List Char)}

theorem append (h : Nests base n ls k) (h' : Nests base k ls' m) :
    Nests base n (ls ++ ls') m := by
  induction h with
  | nil _ => exact h'
  | cons hindent hl _ ih => exact .cons hindent hl (ih h')

/-- The innermost of the groups around some lines is one they may close. -/
theorem shift (h : Nests (base + 1) n ls k) : Nests base (n + 1) ls (k + 1) := by
  induction h with
  | nil _ => exact .nil _
  | cons hindent hl _ ih => exact .cons (by rwa [Nat.add_right_comm] at hindent) (hl.add 1) ih

theorem newline (h : Nests base n ls k) : ∀ l ∈ ls, '\n' ∉ l := by
  induction h with
  | nil _ => exact List.forall_mem_nil _
  | cons _ hl _ ih => exact List.forall_mem_cons.2 ⟨hl.newline, ih⟩

/-- Nested lines open as much as they say. -/
theorem opened_unlines (h : Nests base n ls k) : opened n (unlines ls) = some k := by
  induction h with
  | nil _ => rfl
  | cons _ hl _ ih =>
    rw [unlines, List.flatMap_cons, List.append_assoc, opened_append, hl.opened]
    exact ih

/-- Each line is indented by what is open before it. -/
theorem indented {before after : List (List Char)} {l : List Char}
    (h : Nests base n (before ++ l :: after) k) :
    ∃ m, opened n (unlines before) = some m ∧ Indented (base + m) l := by
  induction before generalizing n with
  | nil =>
    cases h with
    | cons hindent _ _ => exact ⟨n, rfl, hindent⟩
  | cons l' before ih =>
    cases h with
    | cons _ hl' hls =>
      obtain ⟨m, hm, hindent⟩ := ih hls
      refine ⟨m, ?_, hindent⟩
      rw [unlines, List.flatMap_cons, List.append_assoc, opened_append, hl'.opened]
      exact hm

end Nests

/-! ## §3. The lines of a form -/

namespace Form

/-- The lines of a form, as characters. -/
def rows (depth : Nat) (f : Form) : List (List Char) := (f.lines depth).map String.toList

/-- The lines of forms, as characters. -/
def rowsAll (depth : Nat) (fs : List Form) : List (List Char) :=
  (linesAll depth fs).map String.toList

theorem toList_indent (depth : Nat) : (indent depth).toList = spaces depth := by
  rw [indent, String.toList_ofList, spaces]

theorem rows_line (depth : Nat) (text : String) :
    rows depth (.line text) = [spaces depth ++ text.toList] := by
  rw [rows, lines, List.map_singleton, String.toList_append, toList_indent]

theorem rows_group (depth : Nat) (head : String) (body : List Form) :
    rows depth (.group head body) = (spaces depth ++ '(' :: head.toList) ::
      (rowsAll (depth + 1) body ++ [spaces depth ++ [')']]) := by
  simp [rows, rowsAll, lines, toList_indent]

theorem rowsAll_cons (depth : Nat) (f : Form) (fs : List Form) :
    rowsAll depth (f :: fs) = f.rows depth ++ rowsAll depth fs := by
  rw [rowsAll, linesAll, List.map_append]
  rfl

theorem toList_text (f : Form) : f.text.toList = unlines (f.rows 0) := by
  rw [text, String.toList_join, unlines, rows, List.flatMap_map, List.flatMap_map]
  simp only [String.toList_append]
  rfl

/-- The lines of the form can be told apart: each is on one line, closes the
parentheses that it opens, and does not begin with space. -/
inductive WellFormed : Form → Prop where
  | line {text : String} (h : Inline 0 0 text.toList) (hspace : text.toList.head? ≠ some ' ') :
      WellFormed (.line text)
  | group {head : String} {body : List Form} (h : Inline 0 0 head.toList)
      (hbody : ∀ f ∈ body, f.WellFormed) : WellFormed (.group head body)

theorem indented_closing (n : Nat) : Indented (n + 1) (spaces n ++ [')']) :=
  ⟨[')'], rfl, by decide⟩

theorem indented_opening (n : Nat) (head : List Char) : Indented n (spaces n ++ '(' :: head) :=
  ⟨'(' :: head, by rw [if_neg fun h => by cases h], by simp⟩

/-- The lines of forms, one form after the other. -/
theorem nests_rowsAll {fs : List Form} {depth : Nat}
    (h : ∀ f ∈ fs, Nests depth 0 (f.rows depth) 0) : Nests depth 0 (rowsAll depth fs) 0 := by
  induction fs with
  | nil => exact .nil 0
  | cons f fs ih =>
    rw [rowsAll_cons]
    exact (h f List.mem_cons_self).append (ih fun g hg => h g (List.mem_cons_of_mem f hg))

/-- **The lines of a form are laid out by its nesting.** -/
theorem nests_rows {f : Form} (h : f.WellFormed) (depth : Nat) :
    Nests depth 0 (f.rows depth) 0 := by
  induction h generalizing depth with
  | @line text h hspace =>
    have hne : text.toList ≠ [')'] := by
      intro heq
      have hopened := h.opened
      rw [heq] at hopened
      cases hopened
    rw [rows_line]
    exact .cons ⟨_, by rw [if_neg hne]; rfl, hspace⟩ ((inline_spaces depth 0).append h) (.nil 0)
  | @group head body h _ ih =>
    have hopening : Inline 0 1 ('(' :: head.toList) :=
      ⟨List.not_mem_cons_of_ne_of_not_mem (by decide) h.newline, opened_add h.opened 1⟩
    have hclosing : Inline 1 0 [')'] := ⟨by decide, rfl⟩
    rw [rows_group]
    refine .cons (indented_opening depth _) ((inline_spaces depth 0).append hopening) ?_
    refine (nests_rowsAll fun f hf => ih f hf (depth + 1)).shift.append ?_
    exact .cons (indented_closing depth) ((inline_spaces depth 1).append hclosing) (.nil 0)

/-- The lines of the text of a form. -/
theorem splitLines_text {f : Form} (h : f.WellFormed) :
    splitLines f.text.toList = f.rows 0 ++ [[]] := by
  rw [toList_text]
  exact splitLines_unlines (nests_rows h 0).newline

end Form

/-! ## §4. Reading back -/

/-- What has been read of some lines. -/
structure Reading where
  /-- The forms since the innermost open group began, the last first. -/
  forms : List Form := []
  /-- The open groups, the innermost first, each with the forms before it. -/
  groups : List (List Char × List Form) := []

namespace Reading

/-- A form more. -/
def add (r : Reading) (f : Form) : Reading := { r with forms := f :: r.forms }

/-- A group begins. -/
def enter (r : Reading) (head : List Char) : Reading := ⟨[], (head, r.forms) :: r.groups⟩

/-- The innermost group ends. -/
def leave? (r : Reading) : Option Reading :=
  match r.groups with
  | [] => none
  | (head, before) :: groups =>
    some ⟨.group (String.ofList head) r.forms.reverse :: before, groups⟩

/-- A further line, without its indentation. -/
def next? (r : Reading) (text : List Char) : Option Reading :=
  if text = [')'] then r.leave?
  else if opened 0 text = some 0 then some (r.add (.line (String.ofList text)))
  else if text.head? = some '(' ∧ opened 0 text.tail = some 0 then some (r.enter text.tail)
  else none

/-- Further lines. -/
def lines? (r : Reading) (ls : List (List Char)) : Option Reading :=
  ls.foldlM (fun r l => r.next? (l.dropWhile (· = ' '))) r

theorem lines?_cons {r r' : Reading} {n : Nat} {text : List Char} (h : r.next? text = some r')
    (hspace : text.head? ≠ some ' ') (ls : List (List Char)) :
    r.lines? ((spaces n ++ text) :: ls) = r'.lines? ls := by
  rw [lines?, List.foldlM_cons, dropWhile_spaces n hspace, h]
  rfl

theorem lines?_append (r : Reading) (ls ls' : List (List Char)) :
    r.lines? (ls ++ ls') = (r.lines? ls).bind (·.lines? ls') := by
  rw [lines?, List.foldlM_append]
  rfl

/-- A balanced line is added. -/
theorem next?_line {text : String} (h : opened 0 text.toList = some 0) (r : Reading) :
    r.next? text.toList = some (r.add (.line text)) := by
  have hne : text.toList ≠ [')'] := by
    intro heq
    rw [heq] at h
    cases h
  rw [next?, if_neg hne, if_pos h, String.ofList_toList]

/-- A head opens one form. -/
theorem next?_head {head : List Char} (h : opened 0 head = some 0) (r : Reading) :
    r.next? ('(' :: head) = some (r.enter head) := by
  have hne : ('(' :: head) ≠ [')'] := fun heq => by cases heq
  have hopened : opened 0 ('(' :: head) = some 1 := opened_add h 1
  rw [next?, if_neg hne, hopened, if_neg (by decide), if_pos ⟨rfl, h⟩]
  rfl

end Reading

namespace Form

/-- The form that a text of lines is, each with its newline. -/
def ofText? (text : String) : Option Form :=
  if (splitLines text.toList).getLast? = some [] then
    match Reading.lines? {} (splitLines text.toList).dropLast with
    | some ⟨[f], []⟩ => some f
    | _ => none
  else none

/-- The lines of forms are read as these forms. -/
theorem lines?_rowsAll {fs : List Form} {depth : Nat}
    (h : ∀ f ∈ fs, ∀ r : Reading, r.lines? (f.rows depth) = some (r.add f)) (r : Reading) :
    r.lines? (rowsAll depth fs) = some { r with forms := fs.reverse ++ r.forms } := by
  induction fs generalizing r with
  | nil => rfl
  | cons f fs ih =>
    rw [rowsAll_cons, Reading.lines?_append, h f List.mem_cons_self, Option.bind_some,
      ih fun g hg => h g (List.mem_cons_of_mem f hg)]
    simp [Reading.add]

/-- **The lines of a form are read as the form**, wherever they stand. -/
theorem lines?_rows {f : Form} (h : f.WellFormed) (depth : Nat) (r : Reading) :
    r.lines? (f.rows depth) = some (r.add f) := by
  induction h generalizing depth r with
  | @line text h hspace =>
    rw [rows_line, Reading.lines?_cons (Reading.next?_line h.opened r) hspace]
    rfl
  | @group head body h _ ih =>
    have hbody := lines?_rowsAll (fun f hf => ih f hf (depth + 1)) (r.enter head.toList)
    rw [rows_group, Reading.lines?_cons (Reading.next?_head h.opened r) (by simp),
      Reading.lines?_append, hbody, Option.bind_some]
    have hclose : Reading.next? ⟨body.reverse, (head.toList, r.forms) :: r.groups⟩ [')'] =
        some (r.add (.group head body)) := by
      rw [Reading.next?, if_pos rfl, Reading.leave?, List.reverse_reverse]
      dsimp only
      rw [String.ofList_toList]
      rfl
    rw [Reading.enter, List.append_nil, Reading.lines?_cons hclose (by decide)]
    rfl

/-- **A form is read back from its text.** -/
theorem ofText?_text {f : Form} (h : f.WellFormed) : ofText? f.text = some f := by
  rw [ofText?, splitLines_text h, List.getLast?_concat, if_pos rfl, List.dropLast_concat,
    lines?_rows h]
  rfl

end Form

/-! ## §5. The layout of a text -/

/-- The text is lines, each with its newline, whose parentheses balance for the
first time in the last line, and whose indentation is what is open. -/
structure LaidOut (text : String) : Prop where
  /-- Each line is indented by the parentheses open before it, and the last is
  a parenthesis alone. -/
  lines : ∃ ls, splitLines text.toList = ls ++ [[]] ∧ ls.getLast? = some [')'] ∧
    ∀ before l after, ls = before ++ l :: after →
      ∃ n, opened 0 (unlines before) = some n ∧ Indented n l
  /-- None is closed that is not open, and all are closed only at the start and
  after the last. -/
  balanced : ∀ front back, text.toList = front ++ back →
    ∃ n, opened 0 front = some n ∧ (n = 0 ↔ front = [] ∨ back = [] ∨ back = ['\n'])

/-- Between its first and its last parenthesis, the first one is open. -/
theorem opened_enclosed {cs front back : List Char} (h : opened 0 cs = some 0)
    (heq : '(' :: (cs ++ [')', '\n']) = front ++ back) :
    ∃ n, opened 0 front = some n ∧ (n = 0 ↔ front = [] ∨ back = [] ∨ back = ['\n']) := by
  cases front with
  | nil => exact ⟨0, rfl, by simp⟩
  | cons c front =>
    rw [List.cons_append, List.cons.injEq] at heq
    obtain ⟨rfl, heq⟩ := heq
    obtain ⟨last, rfl, hlast⟩ | ⟨inner, rfl, rfl⟩ := List.append_eq_append_iff.1 heq
    · -- all that is left is part of the last line
      have hopened : opened 0 ('(' :: (cs ++ last)) = opened 1 last := by
        rw [← List.cons_append, opened_append, opened_cons]
        exact congrArg (Option.bind · (opened · last)) (opened_add h 1)
      rw [hopened]
      rcases last with _ | ⟨c, _ | ⟨d, _ | _⟩⟩ <;> simp at hlast
      · exact ⟨1, rfl, by simp [← hlast]⟩
      · obtain ⟨rfl, rfl⟩ := hlast
        exact ⟨0, rfl, by simp⟩
      · obtain ⟨rfl, rfl, rfl⟩ := hlast
        exact ⟨0, rfl, by simp⟩
    · obtain ⟨n, hn⟩ := opened_left h
      exact ⟨n + 1, opened_add hn 1, by simp [List.append_eq_singleton_iff]⟩

/-- The text of a group between its first and its last parenthesis. -/
def Form.between (head : String) (body : List Form) : List Char :=
  head.toList ++ '\n' :: unlines (rowsAll 1 body)

theorem Form.toList_text_group (head : String) (body : List Form) :
    (Form.group head body).text.toList = '(' :: (between head body ++ [')', '\n']) := by
  rw [toList_text, rows_group]
  simp [unlines, between, spaces]

theorem Form.opened_between {head : String} {body : List Form} (h : Inline 0 0 head.toList)
    (hbody : ∀ f ∈ body, f.WellFormed) : opened 0 (between head body) = some 0 := by
  have hrows : Nests 1 0 (rowsAll 1 body) 0 := nests_rowsAll fun f hf => nests_rows (hbody f hf) 1
  rw [between, opened_append, h.opened]
  exact hrows.opened_unlines

/-- **The text of a group is laid out by its nesting.** -/
theorem laidOut_text {head : String} {body : List Form} (h : (Form.group head body).WellFormed) :
    LaidOut (Form.group head body).text where
  lines := by
    refine ⟨_, Form.splitLines_text h, ?_, fun before l after heq => ?_⟩
    · rw [Form.rows_group, ← List.cons_append, List.getLast?_concat]
      rfl
    · have hnests := Form.nests_rows h 0
      rw [heq] at hnests
      obtain ⟨n, hn, hindent⟩ := hnests.indented
      rw [Nat.zero_add] at hindent
      exact ⟨n, hn, hindent⟩
  balanced := by
    intro front back heq
    rw [Form.toList_text_group] at heq
    cases h with
    | group hhead hbody => exact opened_enclosed (Form.opened_between hhead hbody) heq

end MiniC.Wasm
