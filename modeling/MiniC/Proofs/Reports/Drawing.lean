/-
  MiniC.Proofs.Reports.Drawing

  **A fault is drawn at its line.**

  The diagnostic of a failed compilation has one snippet, on the source just
  compiled, so one window is drawn however many sources there are
  (`windows_complaint`).  The window reaches over the line of the fault with
  any number of lines of context, and the one label stands below that line
  (`rows_ofSnippet`).  What is printed is the message and the rows of this
  window (`drawnAs_complaint`).
-/
import MiniC.Proofs.Checking.Malformed
import MiniC.Proofs.Reports.Lines
import MiniC.Proofs.Reports.Printed
import MiniC.Session

namespace MiniC

namespace Diagnostic

/-! ## §1. One window -/

/-- The snippets of a complaint are all on its source. -/
theorem snippetsOn_complaint (c : Complaint) (source i : Nat) :
    (c.diagnostic source).snippetsOn i =
      if source = i then [⟨c.category.label, .primary, source, c.line⟩] else [] := by
  unfold snippetsOn Complaint.diagnostic
  by_cases h : source = i <;> simp [h]

/-- **A complaint about the last of the sources is drawn in one window.** -/
theorem windows_complaint (c : Complaint) (sources : List Text.Source) (source : Text.Source)
    (context : Nat) :
    (c.diagnostic sources.length).windows (sources ++ [source]) context =
      [(source, Window.ofSnippet context source.lineCount
        ⟨c.category.label, .primary, sources.length, c.line⟩)] := by
  unfold windows
  rw [List.zipIdx_append, List.flatMap_append, List.flatMap_eq_nil_iff.2 ?before, Nat.zero_add]
  case before =>
    -- nothing is shown of the sources before
    rintro ⟨other, i⟩ hmem
    have hlt : i < sources.length := by
      have := List.snd_lt_of_mem_zipIdx hmem
      omega
    dsimp only
    rw [snippetsOn_complaint, if_neg (Nat.ne_of_gt hlt)]
    rfl
  show (Window.ofSnippets context source.lineCount
    ((c.diagnostic sources.length).snippetsOn sources.length)).map (source, ·) ++ [] = _
  rw [snippetsOn_complaint, if_pos rfl]
  rfl

/-! ## §2. One label -/

/-- The rows of the lines from `first` to `last`, with no label between. -/
def numberedRows (source : Text.Source) (first last : Nat) : List Row :=
  (List.range' first (last + 1 - first)).map fun n => .numbered n (lineText source n)

/-- The rows around the line of a snippet: the lines of context above it, the
line, the label right below, and the lines of context below. -/
def rowsAround (source : Text.Source) (context : Nat) (s : Snippet) : List Row :=
  .place source.name s.line ::
    (numberedRows source (max (s.line - context) 1) (s.line - 1) ++
      .numbered s.line (lineText source s.line) :: .label s (lineText source s.line) ::
        (numberedRows source (s.line + 1) (min (s.line + context) source.lineCount) ++ [.gap]))

/-- Lines without a snippet are single rows. -/
theorem flatMap_rowsAt {w : Window} (source : Text.Source) {first last : Nat}
    (h : ∀ s ∈ w.snippets, s.line < first ∨ last < s.line) :
    (List.range' first (last + 1 - first)).flatMap (w.rowsAt source) =
      numberedRows source first last := by
  have hrows : ∀ n ∈ List.range' first (last + 1 - first),
      w.rowsAt source n = [.numbered n (lineText source n)] := by
    intro n hn
    have hnone : w.snippets.filter (·.line = n) = [] := by
      rw [List.filter_eq_nil_iff]
      intro s hs
      rw [List.mem_range'_1] at hn
      have := h s hs
      rw [decide_eq_true_eq]
      omega
    rw [Window.rowsAt, hnone]
    rfl
  rw [List.flatMap_congr hrows, numberedRows, List.map_eq_flatMap]

/-- A window reaches over the line of its snippet, if the source has that
line. -/
theorem lines_ofSnippet (context : Nat) {count : Nat} {s : Snippet} (hpos : 1 ≤ s.line)
    (hle : s.line ≤ count) :
    (Window.ofSnippet context count s).lines =
      List.range' (max (s.line - context) 1) (s.line - 1 + 1 - max (s.line - context) 1) ++
        s.line :: List.range' (s.line + 1) (min (s.line + context) count + 1 - (s.line + 1)) := by
  have hlast : Window.lastFor context count s = min (s.line + context) count := by
    unfold Window.lastFor Window.firstFor
    omega
  obtain ⟨above, habove⟩ : ∃ above, s.line = max (s.line - context) 1 + above :=
    Nat.exists_eq_add_of_le (by omega)
  obtain ⟨below, hbelow⟩ : ∃ below, min (s.line + context) count = s.line + below :=
    Nat.exists_eq_add_of_le (by omega)
  show List.range' (max (s.line - context) 1)
    (Window.lastFor context count s + 1 - max (s.line - context) 1) = _
  rw [hlast, show min (s.line + context) count + 1 - max (s.line - context) 1 =
      above + (below + 1) by omega,
    show s.line - 1 + 1 - max (s.line - context) 1 = above by omega,
    show min (s.line + context) count + 1 - (s.line + 1) = below by omega,
    ← List.range'_append_1, List.range'_succ, ← habove]

/-- **The window of a snippet on a line of the source has one label**, and it
stands below that line. -/
theorem rows_ofSnippet (context : Nat) {source : Text.Source} {s : Snippet} (hpos : 1 ≤ s.line)
    (hle : s.line ≤ source.lineCount) :
    (Window.ofSnippet context source.lineCount s).rows source = rowsAround source context s := by
  have hrow : (Window.ofSnippet context source.lineCount s).rowsAt source s.line =
      [.numbered s.line (lineText source s.line), .label s (lineText source s.line)] := by
    simp [Window.rowsAt, Window.snippets, Window.ofSnippet, shownLine_eq]
  show Row.place source.name s.line :: (_ ++ [Row.gap]) = _
  rw [lines_ofSnippet context hpos hle, List.flatMap_append, List.flatMap_cons, hrow,
    flatMap_rowsAt source ?above, flatMap_rowsAt source ?below]
  case above =>
    intro s' hs'
    obtain rfl : s' = s := List.mem_singleton.1 hs'
    omega
  case below =>
    intro s' hs'
    obtain rfl : s' = s := List.mem_singleton.1 hs'
    omega
  simp [rowsAround]

/-- **A complaint about a line of the last source is drawn with one label**,
below that line. -/
theorem drawnAs_complaint {c : Complaint} {sources : List Text.Source} {source : Text.Source}
    (hpos : 1 ≤ c.line) (hle : c.line ≤ source.lineCount) (look : Look) :
    (c.diagnostic sources.length).DrawnAs (sources ++ [source]) look
      [rowsAround source look.context ⟨c.category.label, .primary, sources.length, c.line⟩] := by
  have hgroups : (c.diagnostic sources.length).groups (sources ++ [source]) look =
      [rowsAround source look.context ⟨c.category.label, .primary, sources.length, c.line⟩] := by
    rw [groups, windows_complaint, List.map_singleton]
    exact congrArg (fun rows => [rows]) (rows_ofSnippet look.context hpos hle)
  rw [← hgroups]
  exact drawnAs_windows ..

end Diagnostic

/-! ## §3. Faults are drawn where they are -/

/-- A fault is reported at the source just added. -/
theorem Session.compile_of_error (s : Session) {source : Text.Source} {f : Fault}
    (h : MiniC.compile source.text = .error f) :
    ∃ s', s.compile source = (.error (f.complaint.diagnostic s.sources.length), s') ∧
      s'.sources = s.sources ++ [source] := by
  refine ⟨(s.compile source).2, ?_, s.sources_compile source⟩
  unfold Session.compile
  rw [h]
  rfl

/-- **A fault is reported on a line of the text, and drawn there.**  Its line is
that of a token or of the end, lies in the text, and is what the fault quotes,
trimmed.  Whatever was compiled before and however the diagnostic is drawn, the
lines printed below the message are those of the source around the line, and one
label, right below the line. -/
theorem fault_located (source : Text.Source) {f : Fault} (h : compile source.text = .error f) :
    (∃ t ∈ (Scan.tokens source.text).withEnd, t.line = f.line) ∧
    (1 ≤ f.line ∧ f.line ≤ source.lineCount) ∧
    (∃ line, source.line? (f.line - 1) = some line ∧
      f.sourceLine source.text = String.ofList (Text.trim line)) ∧
    ∀ s : Session, ∃ d s', s.compile source = (.error d, s') ∧ ∀ look,
      d.DrawnAs s'.sources look [Diagnostic.rowsAround source look.context
        ⟨f.cause.category.label, .primary, s.sources.length, f.line⟩] := by
  have hparse := parse_of_compile_error h
  obtain ⟨hpos, hle⟩ := line_bounds_of_parse hparse
  rw [← source.lineCount_eq] at hle
  refine ⟨line_of_parse hparse, ⟨hpos, hle⟩, ?_, fun s => ?_⟩
  · obtain ⟨line, hline, htrim⟩ := Text.trim_lineAt hpos hle
    exact ⟨line, hline, congrArg String.ofList htrim⟩
  · obtain ⟨s', hcompile, hsources⟩ := s.compile_of_error h
    refine ⟨_, s', hcompile, fun look => ?_⟩
    rw [hsources]
    exact Diagnostic.drawnAs_complaint hpos hle look

/-- The open quote is drawn on the third line, after a source that was
compiled before. -/
theorem fault_located_quote :
    compile openQuoteText = .error ⟨.malformed .unterminatedChar, 3⟩ ∧
    (∃ t ∈ (Scan.tokens openQuoteText).withEnd, t.line = 3) ∧
    ∃ d s', (Session.mk [⟨"a.c", sampleText⟩] []).compile ⟨"b.c", openQuoteText⟩ = (.error d, s') ∧
      ∀ look, d.DrawnAs s'.sources look [Diagnostic.rowsAround ⟨"b.c", openQuoteText⟩ look.context
        ⟨"invalid token on this line", .primary, 1, 3⟩] := by
  have hlocated := fault_located ⟨"b.c", openQuoteText⟩ compile_openQuoteText
  exact ⟨compile_openQuoteText, hlocated.1, hlocated.2.2.2 ⟨[⟨"a.c", sampleText⟩], []⟩⟩

end MiniC
