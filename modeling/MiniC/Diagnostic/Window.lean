/-
  MiniC.Diagnostic.Window

  Which lines of a source are shown.

  Each snippet asks for its own line and some lines of context around it.
  Windows that overlap or touch are one window.
-/
import MiniC.Diagnostic
import MiniC.Text.Lines

namespace MiniC.Diagnostic

/-- A stretch of lines with the snippets on them. -/
structure Window where
  /-- The first line, counted from 1. -/
  first : Nat
  /-- The last line. -/
  last : Nat
  /-- The first snippet. -/
  lead : Snippet
  /-- The other snippets. -/
  others : List Snippet
  deriving DecidableEq, Repr

namespace Window

/-- The snippets of a window. -/
def snippets (w : Window) : List Snippet := w.lead :: w.others

/-- The lines of a window. -/
def lines (w : Window) : List Nat := List.range' w.first (w.last + 1 - w.first)

/-- The first line that a snippet asks for. -/
def firstFor (context : Nat) (s : Snippet) : Nat := max (s.line - context) 1

/-- The last line that a snippet asks for, in a source of `count` lines. -/
def lastFor (context count : Nat) (s : Snippet) : Nat :=
  max (min (s.line + context) count) (firstFor context s)

/-- The window of one snippet. -/
def ofSnippet (context count : Nat) (s : Snippet) : Window :=
  ⟨firstFor context s, lastFor context count s, s, []⟩

/-- The window with a further snippet. -/
def add (context count : Nat) (w : Window) (s : Snippet) : Window :=
  { w with last := max (lastFor context count s) w.last, others := w.others ++ [s] }

/-- The windows of further snippets, in order of line, after the window that
is open. -/
def grow (context count : Nat) : Window → List Snippet → List Window
  | w, [] => [w]
  | w, s :: ss =>
    if firstFor context s ≤ w.last + 1 then grow context count (w.add context count s) ss
    else w :: grow context count (ofSnippet context count s) ss

/-- The windows of snippets that are in order of line. -/
def ofSnippets (context count : Nat) : List Snippet → List Window
  | [] => []
  | s :: ss => grow context count (ofSnippet context count s) ss

/-- Growing keeps every snippet, in order. -/
theorem flatMap_snippets_grow (context count : Nat) (w : Window) (ss : List Snippet) :
    (grow context count w ss).flatMap snippets = w.snippets ++ ss := by
  induction ss generalizing w with
  | nil => simp [grow]
  | cons s ss ih =>
    rw [grow]
    split
    · rw [ih]
      simp [snippets, add]
    · rw [List.flatMap_cons, ih]
      simp [snippets, ofSnippet]

/-- The windows hold every snippet once, in order. -/
theorem flatMap_snippets_ofSnippets (context count : Nat) (ss : List Snippet) :
    (ofSnippets context count ss).flatMap snippets = ss := by
  cases ss with
  | nil => rfl
  | cons s ss =>
    rw [ofSnippets, flatMap_snippets_grow]
    rfl

end Window

/-- The snippets on one source, in order of line.  Those on the same line stay
in the order they were given. -/
def snippetsOn (d : Diagnostic) (source : Nat) : List Snippet :=
  (d.snippets.filter (·.source = source)).mergeSort fun a b => decide (a.line ≤ b.line)

/-- The windows on the sources, one source after the other.  A snippet on an
unknown source has none. -/
def windows (d : Diagnostic) (sources : List Text.Source) (context : Nat) :
    List (Text.Source × Window) :=
  sources.zipIdx.flatMap fun (source, i) =>
    (Window.ofSnippets context source.lineCount (d.snippetsOn i)).map (source, ·)

end MiniC.Diagnostic
