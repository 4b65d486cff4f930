/-
  MiniC.Proofs.Reports.Printed

  The text of a drawing, line by line.

  What a row reads as is said here without the functions that draw it
  (`Row.Reads`): the number of a line is aligned to the right, the gutters of a
  group of rows all stand after the same number of characters, and a label
  stands behind its underline.  A diagnostic is its message, on a line of its
  own, and below it the rows, each on a line of its own (`Prints`).

  Styles are left to the terminal, and so are the widths of texts.  Whatever
  they are, the pieces of text that are sent make up the lines of the groups of
  rows; without colors, nothing else is sent (`DrawnAs`).

  Main result:

    • `drawnAs_windows`: a diagnostic is drawn as the rows of its windows.
-/
import Mathlib.Data.List.Forall2
import MiniC.Diagnostic.Draw

namespace MiniC.Diagnostic

/-! ## §1. What rows read as -/

/-- Line `n` of a source, counted from 1, with four blanks for each tab. -/
def lineText (source : Text.Source) (n : Nat) : List Char :=
  ((source.line? (n - 1)).getD []).flatMap fun c =>
    if c = '\t' then List.replicate 4 ' ' else [c]

/-- What a row reads as if the gutters stand after `column` characters and
texts are as wide as `width` says. -/
inductive Row.Reads (width : List Char → Nat) (look : Look) (column : Nat) :
    Row → List Char → Prop where
  | place (name : String) (line : Nat) :
    Reads width look column (.place name line) ("In " ++ name ++ ":" ++ toString line).toList
  | numbered (text : List Char) {number blanks : Nat}
    (h : blanks + (toString number).length + 1 = column) :
    Reads width look column (.numbered number text)
      (List.replicate blanks ' ' ++ (toString number).toList ++ ' ' :: look.gutter.toList ++
        ' ' :: text)
  /-- The underline reaches below all of the line but the blanks at its ends,
  and is there also if there is nothing else. -/
  | label (s : Snippet) (text : List Char) :
    Reads width look column (.label s text)
      (List.replicate column ' ' ++ look.gutter.toList ++
        ' ' :: (List.replicate (width (text.takeWhile Text.isBlank)) ' ' ++
          (List.replicate (max (width (Text.trim text)) 1) look.underline.toList).flatten ++
          look.underlineAfter.toList ++ s.label.toList))
  | gap : Reads width look column .gap []

/-- A group of rows reads as lines with all gutters in one column. -/
def RowsRead (width : List Char → Nat) (look : Look) (rows : List Row)
    (lines : List (List Char)) : Prop :=
  ∃ column, List.Forall₂ (Row.Reads width look column) rows lines

/-- Lines, each with its end. -/
def unlines (lines : List (List Char)) : List Char := lines.flatMap (· ++ ['\n'])

/-- The line above the groups. -/
def heading (d : Diagnostic) : List Char :=
  match d.message with
  | some message => ("Error: " ++ message).toList
  | none => "Error:".toList

/-- A text that is the message of a diagnostic and groups of rows.  An empty
line takes their place if there are none. -/
def Prints (d : Diagnostic) (width : List Char → Nat) (look : Look) (groups : List (List Row))
    (text : List Char) : Prop :=
  ∃ lines, List.Forall₂ (RowsRead width look) groups lines ∧
    text = unlines (d.heading :: if groups = [] then [[]] else lines.flatten)

/-- What is sent to a terminal shows a text: the text is sent piece by piece,
each piece in a style. -/
def Terminal.Shows (t : Terminal) (sent : String) (text : List Char) : Prop :=
  ∃ pieces : List Span, sent = String.join (pieces.map fun p => t.send p.style p.text) ∧
    text = pieces.flatMap (·.text.toList)

/-- A diagnostic is drawn as groups of rows. -/
structure DrawnAs (d : Diagnostic) (sources : List Text.Source) (look : Look)
    (groups : List (List Row)) : Prop where
  /-- Without colors, what is sent is the text. -/
  plain : d.Prints Text.width look groups (d.draw sources look false).toList
  /-- With colors, the same text is shown. -/
  colored : (Terminal.standard true).Shows (d.draw sources look true)
    (d.draw sources look false).toList
  /-- Other terminals show a text that differs in the widths only. -/
  every : ∀ t : Terminal, ∃ text, d.Prints t.width look groups text ∧
    t.Shows (d.drawOn t sources look) text

/-! ## §2. Rows are drawn as they read -/

/-- The characters of pieces of text. -/
def lettering (spans : List Span) : List Char := spans.flatMap (·.text.toList)

theorem shownLine_eq (source : Text.Source) (n : Nat) : shownLine source n = lineText source n :=
  rfl

theorem toList_repeated (n : Nat) (text : String) :
    (repeated n text).toList = (List.replicate n text.toList).flatten := by
  rw [repeated, String.toList_join, ← List.map_replicate, List.flatMap_def]

/-- A longer number has no fewer digits. -/
theorem length_toString_le {n m : Nat} (h : n ≤ m) :
    (toString n).length ≤ (Text.digitsOf m).length := by
  have hm := (Nat.length_toDigits_le_iff (b := 10) (n := m) (by decide)
    Nat.length_toDigits_pos).1 (Nat.le_refl _)
  show (String.ofList (Nat.toDigits 10 n)).length ≤ _
  rw [String.length_ofList]
  exact (Nat.length_toDigits_le_iff (by decide) Nat.length_toDigits_pos).2 (Nat.lt_of_le_of_lt h hm)

/-- A window has no numbers beyond its last line. -/
theorem Window.le_last_of_mem_rows {w : Window} {source : Text.Source} {n : Nat} {text : List Char}
    (h : .numbered n text ∈ w.rows source) : n ≤ w.last := by
  simp only [rows, rowsAt, List.mem_cons, List.mem_append, List.mem_flatMap, List.mem_map,
    Row.numbered.injEq, reduceCtorEq, and_false, exists_false, false_or, or_false,
    List.not_mem_nil] at h
  obtain ⟨m, hm, rfl, -⟩ := h
  rw [lines, List.mem_range'_1] at hm
  omega

/-- **A row is drawn as it reads**, if its number is not too long. -/
theorem Row.reads_spans (t : Terminal) (look : Look) {width : Nat} {r : Row}
    (h : ∀ n text, r = .numbered n text → (toString n).length ≤ width) :
    ∃ line, r.Reads t.width look (width + 1) line ∧
      lettering (r.spans t look width) = line ++ ['\n'] := by
  cases r with
  | place name line =>
    refine ⟨_, .place name line, ?_⟩
    have hline : Text.unsigned line = toString line := rfl
    simp [lettering, spans, hline]
  | numbered n text =>
    have hn : Text.unsigned n = toString n := rfl
    have hcolumn : width - (toString n).length + (toString n).length + 1 = width + 1 := by
      have := h n text rfl
      omega
    refine ⟨_, .numbered text hcolumn, ?_⟩
    simp [lettering, spans, gutterSpan, blanks, hn]
  | label s text =>
    refine ⟨_, .label s text, ?_⟩
    simp [lettering, spans, gutterSpan, underlined, blanks, toList_repeated,
      List.replicate_succ']
  | gap => exact ⟨[], .gap, rfl⟩

/-! ## §3. The whole is drawn as it reads -/

theorem lettering_append (spans spans' : List Span) :
    lettering (spans ++ spans') = lettering spans ++ lettering spans' :=
  List.flatMap_append

/-- What is drawn part by part reads part by part. -/
theorem exists_forall₂_lettering {α β : Type} {R : α → β → Prop} {text : β → List Char}
    {pieces : α → List Span} {as : List α}
    (h : ∀ a ∈ as, ∃ b, R a b ∧ lettering (pieces a) = text b) :
    ∃ bs, List.Forall₂ R as bs ∧ lettering (as.flatMap pieces) = bs.flatMap text := by
  induction as with
  | nil => exact ⟨[], .nil, rfl⟩
  | cons a as ih =>
    obtain ⟨b, hb, ha⟩ := h a List.mem_cons_self
    obtain ⟨bs, hbs, has⟩ := ih fun a' ha' => h a' (List.mem_cons_of_mem _ ha')
    refine ⟨b :: bs, .cons hb hbs, ?_⟩
    rw [List.flatMap_cons, lettering_append, ha, has, List.flatMap_cons]

/-- **A window is drawn as its rows read.** -/
theorem Window.rowsRead_spans (w : Window) (t : Terminal) (look : Look) (source : Text.Source) :
    ∃ lines, RowsRead t.width look (w.rows source) lines ∧
      lettering (w.spans t look source) = unlines lines := by
  have hrow : ∀ r ∈ w.rows source, ∃ line, r.Reads t.width look (w.numberWidth + 1) line ∧
      lettering (r.spans t look w.numberWidth) = line ++ ['\n'] := by
    refine fun r hr => Row.reads_spans t look fun n text heq => ?_
    exact length_toString_le (le_last_of_mem_rows (heq ▸ hr))
  obtain ⟨lines, hreads, htext⟩ := exists_forall₂_lettering hrow
  exact ⟨lines, ⟨_, hreads⟩, htext⟩

theorem unlines_flatten (groups : List (List (List Char))) :
    unlines groups.flatten = groups.flatMap unlines := by
  rw [unlines, ← List.flatMap_id, List.flatMap_assoc]
  rfl

theorem lettering_header (d : Diagnostic) : lettering d.header = d.heading ++ ['\n'] := by
  unfold header heading
  cases d.message <;> simp [lettering]

section Whole

variable (d : Diagnostic) (sources : List Text.Source) (look : Look)

/-- The groups of rows that a diagnostic has, one for each window. -/
def groups : List (List Row) :=
  (d.windows sources look.context).map fun sw => sw.2.rows sw.1

/-- **On any terminal, a diagnostic is drawn as its message and the rows of its
windows read.** -/
theorem prints_spans (t : Terminal) :
    d.Prints t.width look (d.groups sources look) (lettering (d.spans t sources look)) := by
  have hwindow : ∀ sw ∈ d.windows sources look.context,
      ∃ lines, RowsRead t.width look (sw.2.rows sw.1) lines ∧
        lettering (sw.2.spans t look sw.1) = unlines lines :=
    fun sw _ => sw.2.rowsRead_spans t look sw.1
  obtain ⟨lines, hreads, htext⟩ := exists_forall₂_lettering hwindow
  refine ⟨lines, List.forall₂_map_left_iff.2 hreads, ?_⟩
  unfold spans groups
  rw [lettering_append, lettering_header]
  cases hws : d.windows sources look.context with
  | nil => simp [unlines, lettering]
  | cons sw ws =>
    rw [hws] at htext
    show _ ++ lettering ((sw :: ws).flatMap _) = _
    rw [htext, ← unlines_flatten]
    rfl

theorem shows_drawOn (t : Terminal) :
    t.Shows (d.drawOn t sources look) (lettering (d.spans t sources look)) :=
  ⟨_, rfl, rfl⟩

/-- Without colors, what is sent is the text. -/
theorem toList_draw_false :
    (d.draw sources look false).toList = lettering (d.spans (.standard false) sources look) := by
  show (String.join ((d.spans _ sources look).map _)).toList = _
  simp only [Terminal.send_standard_false, String.toList_join, List.flatMap_map]
  rfl

/-- **A diagnostic is drawn as the rows of its windows.** -/
theorem drawnAs_windows : d.DrawnAs sources look (d.groups sources look) where
  plain := by
    rw [toList_draw_false]
    exact d.prints_spans sources look (.standard false)
  colored := by
    rw [toList_draw_false]
    exact d.shows_drawOn sources look (.standard true)
  every t := ⟨_, d.prints_spans sources look t, d.shows_drawOn sources look t⟩

end Whole

end MiniC.Diagnostic
