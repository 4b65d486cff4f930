/-
  MiniC.Proofs.Reports.Windows

  **Every line and every label is drawn once.**

  The snippets on a source are taken in order of line, and each either joins
  the window that is open or starts a new one.  Three things are kept while
  windows grow, whatever snippets are still to come:

    • the windows reach over the lines that their snippets ask for, and over
      no others (`mem_lines_grow`),
    • between two windows there is a line that neither shows
      (`pairwise_before_grow`),
    • a snippet stands in the window that shows its line (`holds_grow`).

  Since windows are apart, all snippets on a line stand in one window, in the
  order they were given (`filter_flatMap_snippets`), so what is drawn below a
  line can be read off the diagnostic (`DrawnOnce`).
-/
import Mathlib
import MiniC.Proofs.Reports.Drawing
import MiniC.Proofs.Scanning.Printing

namespace MiniC.Diagnostic

/-! ## §1. Windows that grow -/

/-- In order of line. -/
def Ordered (ss : List Snippet) : Prop := ss.Pairwise fun a b => a.line ≤ b.line

namespace Window

variable {context count : Nat}
variable {w : Window} {n : Nat} {s : Snippet} {ss : List Snippet}

/-- Between the two windows there is a line that neither shows. -/
def Before (w w' : Window) : Prop := w.last + 1 < w'.first

/-- The window shows the lines of its snippets. -/
def Holds (w : Window) : Prop := ∀ s ∈ w.snippets, s.line ∈ w.lines

theorem mem_lines : n ∈ w.lines ↔ w.first ≤ n ∧ n ≤ w.last := by
  unfold lines
  rw [List.mem_range'_1]
  omega

theorem firstFor_le {a b : Snippet} (h : a.line ≤ b.line) :
    firstFor context a ≤ firstFor context b := by
  unfold firstFor
  omega

/-- The lines that a snippet on a line of the source asks for are those around
its own that the source has. -/
theorem between_iff (hpos : 1 ≤ s.line) (hle : s.line ≤ count) :
    firstFor context s ≤ n ∧ n ≤ lastFor context count s ↔
      (s.line - context ≤ n ∧ n ≤ s.line + context) ∧ 1 ≤ n ∧ n ≤ count := by
  unfold lastFor firstFor
  omega

/-- A further snippet adds the lines it asks for, if they overlap or touch
those of the window. -/
theorem mem_lines_add (hfirst : w.first ≤ firstFor context s)
    (htouch : firstFor context s ≤ w.last + 1) :
    n ∈ (w.add context count s).lines ↔
      n ∈ w.lines ∨ (firstFor context s ≤ n ∧ n ≤ lastFor context count s) := by
  rw [mem_lines, mem_lines]
  show w.first ≤ n ∧ n ≤ max (lastFor context count s) w.last ↔ _
  omega

theorem mem_lines_ofSnippet :
    n ∈ (ofSnippet context count s).lines ↔
      firstFor context s ≤ n ∧ n ≤ lastFor context count s :=
  mem_lines

/-- No window starts before the one that is open, nor before the first line
that is still asked for. -/
theorem le_first_of_mem_grow {w' : Window} (hw : n ≤ w.first)
    (hss : ∀ s ∈ ss, n ≤ firstFor context s) (hmem : w' ∈ grow context count w ss) :
    n ≤ w'.first := by
  induction ss generalizing w with
  | nil =>
    rw [List.mem_singleton.1 hmem]
    exact hw
  | cons s ss ih =>
    have hrest : ∀ s ∈ ss, n ≤ firstFor context s := fun s' hs' =>
      hss s' (List.mem_cons_of_mem _ hs')
    rw [grow] at hmem
    split at hmem
    · exact ih (w := w.add context count s) hw hrest hmem
    · rcases List.mem_cons.1 hmem with rfl | hmem
      · exact hw
      · exact ih (hss s List.mem_cons_self) hrest hmem

/-- **Windows are apart.** -/
theorem pairwise_before_grow (hss : Ordered ss) : (grow context count w ss).Pairwise Before := by
  induction ss generalizing w with
  | nil => exact List.pairwise_singleton _ w
  | cons s ss ih =>
    obtain ⟨hle, hrest⟩ := List.pairwise_cons.1 hss
    rw [grow]
    split
    · exact ih hrest
    · rename_i hfar
      refine List.pairwise_cons.2 ⟨fun w' hw' => ?_, ih hrest⟩
      -- later windows start where the snippet asks to, or further on
      have hfirst : firstFor context s ≤ w'.first :=
        le_first_of_mem_grow (Nat.le_refl _) (fun s' hs' => firstFor_le (hle s' hs')) hw'
      unfold Before
      omega

/-- **Windows show what their snippets ask for.** -/
theorem mem_lines_grow (hss : Ordered ss) (hw : ∀ s ∈ ss, w.first ≤ firstFor context s) :
    n ∈ (grow context count w ss).flatMap lines ↔
      n ∈ w.lines ∨ ∃ s ∈ ss, firstFor context s ≤ n ∧ n ≤ lastFor context count s := by
  induction ss generalizing w with
  | nil => simp [grow]
  | cons s ss ih =>
    obtain ⟨hle, hrest⟩ := List.pairwise_cons.1 hss
    rw [grow, List.exists_mem_cons_iff]
    split
    · rename_i htouch
      have hadd := ih (w := w.add context count s) hrest fun s' hs' =>
        hw s' (List.mem_cons_of_mem _ hs')
      rw [hadd, mem_lines_add (hw s List.mem_cons_self) htouch, or_assoc]
    · have hnew := ih (w := ofSnippet context count s) hrest fun s' hs' =>
        firstFor_le (hle s' hs')
      rw [List.flatMap_cons, List.mem_append, hnew, mem_lines_ofSnippet]

/-- **A snippet stands in the window that shows its line.** -/
theorem holds_grow {w' : Window} (hss : Ordered ss)
    (hfirst : ∀ s ∈ ss, w.first ≤ firstFor context s) (hw : w.Holds)
    (hown : ∀ s ∈ ss, s.line ∈ (ofSnippet context count s).lines)
    (hmem : w' ∈ grow context count w ss) : w'.Holds := by
  induction ss generalizing w with
  | nil =>
    rw [List.mem_singleton.1 hmem]
    exact hw
  | cons s ss ih =>
    obtain ⟨hle, hrest⟩ := List.pairwise_cons.1 hss
    have hownRest : ∀ s ∈ ss, s.line ∈ (ofSnippet context count s).lines := fun s' hs' =>
      hown s' (List.mem_cons_of_mem _ hs')
    have hline := hown s List.mem_cons_self
    rw [grow] at hmem
    split at hmem
    · rename_i htouch
      refine ih (w := w.add context count s) hrest
        (fun s' hs' => hfirst s' (List.mem_cons_of_mem _ hs')) ?_ hownRest hmem
      intro s' hs'
      rw [mem_lines_add (hfirst s List.mem_cons_self) htouch]
      -- the snippets are those of the window and, after them, the new one
      rw [snippets, add, ← List.cons_append, List.mem_append, List.mem_singleton] at hs'
      rcases hs' with hs' | rfl
      · exact .inl (hw s' hs')
      · exact .inr (mem_lines_ofSnippet.1 hline)
    · rcases List.mem_cons.1 hmem with rfl | hmem
      · exact hw
      · refine ih (w := ofSnippet context count s) hrest
          (fun s' hs' => firstFor_le (hle s' hs')) ?_ hownRest hmem
        exact fun s' hs' => List.mem_singleton.1 hs' ▸ hline

/-! ## §2. The windows of snippets in order -/

section Snippets

variable {ss : List Snippet} (hss : Ordered ss)
  (hlines : ∀ s ∈ ss, 1 ≤ s.line ∧ s.line ≤ count)
variable {n : Nat} {w : Window} {ws : List Window}

include hss in
theorem pairwise_before_ofSnippets : (ofSnippets context count ss).Pairwise Before := by
  cases ss with
  | nil => exact List.Pairwise.nil
  | cons s ss => exact pairwise_before_grow hss.of_cons

include hss hlines in
/-- The lines shown are those near a snippet. -/
theorem mem_lines_ofSnippets :
    n ∈ (ofSnippets context count ss).flatMap lines ↔
      ∃ s ∈ ss, (s.line - context ≤ n ∧ n ≤ s.line + context) ∧ 1 ≤ n ∧ n ≤ count := by
  have hbetween : (∃ s ∈ ss, (s.line - context ≤ n ∧ n ≤ s.line + context) ∧ 1 ≤ n ∧ n ≤ count) ↔
      ∃ s ∈ ss, firstFor context s ≤ n ∧ n ≤ lastFor context count s :=
    exists_congr fun s => and_congr_right fun hs =>
      (between_iff (hlines s hs).1 (hlines s hs).2).symm
  rw [hbetween]
  cases ss with
  | nil => simp [ofSnippets]
  | cons s ss =>
    obtain ⟨hle, hrest⟩ := List.pairwise_cons.1 hss
    rw [ofSnippets, List.exists_mem_cons_iff, ← mem_lines_ofSnippet]
    exact mem_lines_grow hrest fun s' hs' => firstFor_le (hle s' hs')

include hss hlines in
/-- Windows are ranges that hold their snippets. -/
theorem holds_ofSnippets (hw : w ∈ ofSnippets context count ss) : w.Holds := by
  have hown : ∀ s ∈ ss, s.line ∈ (ofSnippet context count s).lines := by
    intro s hs
    obtain ⟨hpos, hle⟩ := hlines s hs
    rw [mem_lines_ofSnippet, between_iff hpos hle]
    omega
  cases ss with
  | nil => cases hw
  | cons s ss =>
    obtain ⟨hle, hrest⟩ := List.pairwise_cons.1 hss
    refine holds_grow (w := ofSnippet context count s) hrest
      (fun s' hs' => firstFor_le (hle s' hs')) ?_
      (fun s' hs' => hown s' (List.mem_cons_of_mem _ hs')) hw
    exact fun s' hs' => List.mem_singleton.1 hs' ▸ hown s List.mem_cons_self

/-- Windows that are apart show no line twice. -/
theorem pairwise_lt_lines (h : ws.Pairwise Before) : (ws.flatMap lines).Pairwise (· < ·) := by
  refine List.pairwise_flatMap.2 ⟨fun w _ => List.pairwise_lt_range' 1, ?_⟩
  refine h.imp fun {w w'} hbefore n hn n' hn' => ?_
  have hle := (mem_lines.1 hn).2
  have hge := (mem_lines.1 hn').1
  unfold Before at hbefore
  omega

/-- Windows whose snippets are on other lines have none on this one. -/
theorem filter_flatMap_snippets_eq_nil (hold : ∀ w ∈ ws, w.Holds) (hn : ∀ w ∈ ws, n ∉ w.lines) :
    (ws.flatMap snippets).filter (·.line = n) = [] := by
  rw [List.filter_eq_nil_iff]
  intro s hs
  obtain ⟨w, hw, hs⟩ := List.mem_flatMap.1 hs
  rw [decide_eq_true_eq]
  rintro rfl
  exact hn w hw (hold w hw s hs)

/-- The lines of a window, and the one after it, are in no other window. -/
theorem notMem_lines_of_before {pre post : List Window} (h : (pre ++ w :: post).Pairwise Before)
    (hn : w.first ≤ n ∧ n ≤ w.last + 1) {w' : Window} (hw' : w' ∈ pre ++ post) : n ∉ w'.lines := by
  obtain ⟨_, hpost, hpre⟩ := List.pairwise_append.1 h
  have hfar : w'.Before w ∨ w.Before w' := (List.mem_append.1 hw').imp
    (fun hw' => hpre w' hw' w List.mem_cons_self) (fun hw' => (List.pairwise_cons.1 hpost).1 w' hw')
  rw [mem_lines]
  unfold Before at hfar
  omega

/-- **The snippets on a line all stand in the window that shows it.** -/
theorem filter_flatMap_snippets (hbefore : ws.Pairwise Before) (hold : ∀ w ∈ ws, w.Holds)
    (hw : w ∈ ws) (hn : n ∈ w.lines) :
    (ws.flatMap snippets).filter (·.line = n) = w.snippets.filter (·.line = n) := by
  obtain ⟨pre, post, rfl⟩ := List.append_of_mem hw
  have hother : ∀ w' ∈ pre ++ post, n ∉ w'.lines := fun w' =>
    notMem_lines_of_before hbefore (by have := mem_lines.1 hn; omega)
  rw [List.flatMap_append, List.flatMap_cons, List.filter_append, List.filter_append,
    filter_flatMap_snippets_eq_nil (fun w' h => hold w' (List.mem_append_left _ h))
      (fun w' h => hother w' (List.mem_append_left _ h)),
    filter_flatMap_snippets_eq_nil
      (fun w' h => hold w' (List.mem_append_right _ (List.mem_cons_of_mem _ h)))
      (fun w' h => hother w' (List.mem_append_right _ h)),
    List.nil_append, List.append_nil]

end Snippets

end Window

/-! ## §3. The rows of a window -/

/-- The number of a numbered line. -/
def Row.number? : Row → Option Nat
  | .numbered n _ => some n
  | _ => none

/-- The snippet of a label. -/
def Row.snippet? : Row → Option Snippet
  | .label s _ => some s
  | _ => none

namespace Window

/-- The numbers that the rows of a window show. -/
def numbers (w : Window) (source : Text.Source) : List Nat :=
  (w.rows source).filterMap Row.number?

/-- The snippets that the rows of a window label. -/
def labelled (w : Window) (source : Text.Source) : List Snippet :=
  (w.rows source).filterMap Row.snippet?

/-- A line has one row with a number, its own. -/
theorem number?_rowsAt (w : Window) (source : Text.Source) (n : Nat) :
    (w.rowsAt source n).filterMap Row.number? = [n] := by
  have hlabels (text : List Char) (ss : List Snippet) :
      (ss.map (Row.label · text)).filterMap Row.number? = [] := by
    rw [List.filterMap_map]
    exact List.filterMap_none ss
  exact congrArg (n :: ·) (hlabels _ _)

theorem snippet?_rowsAt (w : Window) (source : Text.Source) (n : Nat) :
    (w.rowsAt source n).filterMap Row.snippet? = w.snippets.filter (·.line = n) := by
  rw [rowsAt, List.filterMap_cons_none rfl, List.filterMap_map]
  exact List.filterMap_some

/-- A window shows each of its lines once, in order. -/
theorem numbers_eq (w : Window) (source : Text.Source) : w.numbers source = w.lines := by
  rw [numbers, rows, List.filterMap_cons_none rfl, List.filterMap_append, List.filterMap_flatMap]
  simp only [number?_rowsAt]
  exact (List.append_nil _).trans (List.flatMap_singleton' w.lines)

/-- The labels of a window, line by line. -/
theorem labelled_eq (w : Window) (source : Text.Source) :
    w.labelled source = w.lines.flatMap fun n => w.snippets.filter (·.line = n) := by
  rw [labelled, rows, List.filterMap_cons_none rfl, List.filterMap_append, List.filterMap_flatMap]
  simp only [snippet?_rowsAt]
  exact List.append_nil _

end Window

/-- Taken line by line, snippets are all there once. -/
theorem perm_flatMap_filter {ns : List Nat} {ss : List Snippet} (hns : ns.Nodup)
    (hss : ∀ s ∈ ss, s.line ∈ ns) : (ns.flatMap fun n => ss.filter (·.line = n)).Perm ss := by
  induction ns generalizing ss with
  | nil =>
    rw [List.eq_nil_iff_forall_not_mem.2 fun s hs => List.not_mem_nil (hss s hs)]
    exact .refl _
  | cons n ns ih =>
    obtain ⟨hn, hns⟩ := List.nodup_cons.1 hns
    -- those on other lines are left for the lines that follow
    have hothers : (ns.flatMap fun m => ss.filter (·.line = m)) =
        ns.flatMap fun m => (ss.filter fun s => !decide (s.line = n)).filter (·.line = m) := by
      refine List.flatMap_congr fun m hm => ?_
      rw [List.filter_filter]
      refine List.filter_congr fun s _ => ?_
      by_cases hs : s.line = m
      · have hne : s.line ≠ n := fun heq => hn (heq ▸ hs ▸ hm)
        simp [hs, hs ▸ hne]
      · simp [hs]
    rw [List.flatMap_cons, hothers]
    refine (List.Perm.append_left _ (ih hns ?_)).trans (List.filter_append_perm _ ss)
    intro s hs
    obtain ⟨hs, hne⟩ := List.mem_filter.1 hs
    refine (List.mem_cons.1 (hss s hs)).resolve_left fun heq => ?_
    simp [heq] at hne

/-! ## §4. The snippets on a source -/

section Sorting

variable (d : Diagnostic) (i : Nat)

theorem perm_snippetsOn : (d.snippetsOn i).Perm (d.snippets.filter (·.source = i)) :=
  List.mergeSort_perm _ _

theorem line_le_trans (a b c : Snippet) (hab : decide (a.line ≤ b.line) = true)
    (hbc : decide (b.line ≤ c.line) = true) : decide (a.line ≤ c.line) = true :=
  decide_eq_true (Nat.le_trans (of_decide_eq_true hab) (of_decide_eq_true hbc))

theorem line_le_total (a b : Snippet) :
    (decide (a.line ≤ b.line) || decide (b.line ≤ a.line)) = true := by
  simpa using Nat.le_total a.line b.line

theorem ordered_snippetsOn : Ordered (d.snippetsOn i) :=
  (List.pairwise_mergeSort line_le_trans line_le_total _).imp of_decide_eq_true

/-- **Snippets on one line stay in the order they were given.** -/
theorem filter_snippetsOn (n : Nat) :
    (d.snippetsOn i).filter (·.line = n) =
      d.snippets.filter fun s => s.source = i ∧ s.line = n := by
  have hgiven : (d.snippets.filter fun s => s.source = i ∧ s.line = n) =
      (d.snippets.filter (·.source = i)).filter (·.line = n) := by
    rw [List.filter_filter]
    refine List.filter_congr fun s _ => ?_
    rw [Bool.decide_and, Bool.and_comm]
  rw [hgiven]
  -- sorting keeps every list that is sorted already
  have hsorted : ((d.snippets.filter (·.source = i)).filter (·.line = n)).Pairwise
      fun a b => decide (a.line ≤ b.line) = true := by
    refine List.pairwise_of_forall_mem_list fun a ha b hb => decide_eq_true ?_
    have ha := of_decide_eq_true (List.mem_filter.1 ha).2
    have hb := of_decide_eq_true (List.mem_filter.1 hb).2
    omega
  have hsub := List.sublist_mergeSort line_le_trans line_le_total hsorted List.filter_sublist
  have hsub' := hsub.filter (·.line = n)
  rw [List.filter_eq_self.2 fun s hs => (List.mem_filter.1 hs).2] at hsub'
  refine (hsub'.eq_of_length ?_).symm
  exact ((d.perm_snippetsOn i).filter _).length_eq.symm

end Sorting

/-! ## §5. The whole -/

/-- The windows on one source. -/
def windowsOn (d : Diagnostic) (context : Nat) (source : Text.Source) (i : Nat) : List Window :=
  Window.ofSnippets context source.lineCount (d.snippetsOn i)

/-- The rows that a diagnostic has for one line of a source: the line, and below
it the labels on it, in the order they were given. -/
def rowsOn (d : Diagnostic) (source : Text.Source) (i n : Nat) : List Row :=
  .numbered n (lineText source n) ::
    (d.snippets.filter fun s => s.source = i ∧ s.line = n).map (.label · (lineText source n))

/-- Windows that show all that a diagnostic has on source `i`, and nothing
twice. -/
structure DrawnOnce (d : Diagnostic) (look : Look) (source : Text.Source) (i : Nat)
    (ws : List Window) : Prop where
  /-- The numbers grow from row to row. -/
  increasing : (ws.flatMap (·.numbers source)).Pairwise (· < ·)
  /-- They are those of the lines around the snippets that the source has. -/
  union : ∀ n, n ∈ ws.flatMap (·.numbers source) ↔
    ∃ s ∈ d.snippets, s.source = i ∧
      (s.line - look.context ≤ n ∧ n ≤ s.line + look.context) ∧ 1 ≤ n ∧ n ≤ source.lineCount
  /-- Between two windows there is a line that no window shows. -/
  apart : ws.Pairwise fun w w' => ∃ m, m ∉ ws.flatMap (·.numbers source) ∧
    (∀ n ∈ w.numbers source, n < m) ∧ ∀ n ∈ w'.numbers source, m < n
  /-- A window has some lines, and below each of them its labels. -/
  rows : ∀ w ∈ ws, w.numbers source ≠ [] ∧ w.rows source =
    .place source.name w.lead.line :: ((w.numbers source).flatMap (d.rowsOn source i) ++ [.gap])
  /-- No label is lost and none is drawn twice. -/
  once : (ws.flatMap (·.labelled source)).Perm (d.snippets.filter (·.source = i))

namespace Window

/-- A window shows the line of its first snippet. -/
theorem first_le_last {w : Window} (h : w.Holds) : w.first ≤ w.last := by
  have hlead := mem_lines.1 (h w.lead List.mem_cons_self)
  omega

/-- The line after a window is shown by none of them. -/
theorem last_succ_notMem {ws : List Window} (hbefore : ws.Pairwise Before)
    (hold : ∀ w ∈ ws, w.Holds) {w : Window} (hw : w ∈ ws) :
    w.last + 1 ∉ ws.flatMap lines := by
  have hle := first_le_last (hold w hw)
  obtain ⟨pre, post, rfl⟩ := List.append_of_mem hw
  rw [List.mem_flatMap]
  rintro ⟨w', hw', hmem⟩
  by_cases hother : w' ∈ pre ++ post
  · exact notMem_lines_of_before hbefore ⟨by omega, Nat.le_refl _⟩ hother hmem
  · obtain rfl : w' = w := by grind
    rw [mem_lines] at hmem
    omega

end Window

section Whole

variable (d : Diagnostic)

/-- The windows on a source show what the diagnostic has there. -/
theorem drawnOnce_windowsOn (look : Look) {source : Text.Source} {i : Nat}
    (hlines : ∀ s ∈ d.snippets, s.source = i → 1 ≤ s.line ∧ s.line ≤ source.lineCount) :
    DrawnOnce d look source i (d.windowsOn look.context source i) := by
  have hordered := d.ordered_snippetsOn i
  have hmem {s : Snippet} : s ∈ d.snippetsOn i ↔ s ∈ d.snippets ∧ s.source = i := by
    rw [(d.perm_snippetsOn i).mem_iff, List.mem_filter, decide_eq_true_eq]
  have hvalid : ∀ s ∈ d.snippetsOn i, 1 ≤ s.line ∧ s.line ≤ source.lineCount := fun s hs =>
    hlines s (hmem.1 hs).1 (hmem.1 hs).2
  have hbefore : (d.windowsOn look.context source i).Pairwise Window.Before :=
    Window.pairwise_before_ofSnippets hordered
  have hold : ∀ w ∈ d.windowsOn look.context source i, w.Holds := fun w hw =>
    Window.holds_ofSnippets hordered hvalid hw
  have hall : (d.windowsOn look.context source i).flatMap Window.snippets = d.snippetsOn i :=
    Window.flatMap_snippets_ofSnippets ..
  have hnumbers : (d.windowsOn look.context source i).flatMap (·.numbers source) =
      (d.windowsOn look.context source i).flatMap Window.lines :=
    List.flatMap_congr fun w _ => w.numbers_eq source
  refine ⟨?increasing, ?union, ?apart, ?rows, ?once⟩
  case increasing =>
    rw [hnumbers]
    exact Window.pairwise_lt_lines hbefore
  case union =>
    intro n
    rw [hnumbers, windowsOn, Window.mem_lines_ofSnippets hordered hvalid]
    simp only [hmem, and_assoc]
  case apart =>
    -- the line after a window is in no window
    refine hbefore.imp_of_mem fun {w w'} hw _ hfar => ⟨w.last + 1, ?_, ?_, ?_⟩
    · rw [hnumbers]
      exact Window.last_succ_notMem hbefore hold hw
    · intro n hn
      rw [Window.numbers_eq, Window.mem_lines] at hn
      omega
    · intro n hn
      rw [Window.numbers_eq, Window.mem_lines] at hn
      unfold Window.Before at hfar
      omega
  case rows =>
    intro w hw
    rw [Window.numbers_eq]
    refine ⟨List.ne_nil_of_mem (hold w hw w.lead List.mem_cons_self), ?_⟩
    -- what the window has on a line is all that the diagnostic has there
    have hrows : ∀ n ∈ w.lines, w.rowsAt source n = d.rowsOn source i n := by
      intro n hn
      rw [Window.rowsAt, ← Window.filter_flatMap_snippets hbefore hold hw hn, hall,
        filter_snippetsOn]
      rfl
    rw [Window.rows, List.flatMap_congr hrows]
  case once =>
    refine .trans ?_ (d.perm_snippetsOn i)
    rw [← hall]
    refine List.Perm.flatMap_left _ fun w hw => ?_
    rw [Window.labelled_eq]
    exact perm_flatMap_filter List.nodup_range' (hold w hw)

/-- The groups of rows are those of window after window, source after source. -/
theorem groups_eq (sources : List Text.Source) (look : Look) :
    d.groups sources look = sources.zipIdx.flatMap fun si =>
      (d.windowsOn look.context si.1 si.2).map (·.rows si.1) := by
  rw [groups, windows, List.map_flatMap]
  refine List.flatMap_congr fun si _ => ?_
  rw [List.map_map]
  rfl

/-- The diagnostic without the snippets on unknown sources. -/
def known (sources : List Text.Source) : Diagnostic :=
  { d with snippets := d.snippets.filter (·.source < sources.length) }

/-- Snippets on unknown sources draw nothing. -/
theorem drawOn_known (t : Terminal) (sources : List Text.Source) (look : Look) :
    (d.known sources).drawOn t sources look = d.drawOn t sources look := by
  have hsnippets {i : Nat} (hi : i < sources.length) :
      (d.known sources).snippetsOn i = d.snippetsOn i := by
    unfold snippetsOn known
    rw [List.filter_filter]
    congr 1
    refine List.filter_congr fun s _ => ?_
    by_cases hs : s.source = i <;> simp [hs, hi]
  have hwindows : (d.known sources).windows sources look.context =
      d.windows sources look.context := by
    refine List.flatMap_congr fun si hsi => ?_
    obtain ⟨source, i⟩ := si
    dsimp only
    rw [hsnippets (by simpa using List.snd_lt_of_mem_zipIdx hsi)]
  rw [drawOn, spans, hwindows]
  rfl

/-- **Every line and every label is drawn once.**  For snippets on lines that
their sources have, in any order, what is printed below the message is a group
of rows for each window, one source after the other in the order of the
sources, each row on a line of its own and the gutters of a group in one column.
On each source the windows show the lines around the snippets, each of them
once, and below each line the labels on it; labels on unknown sources are not
drawn. -/
theorem drawn_once (sources : List Text.Source) (look : Look)
    (hlines : ∀ s ∈ d.snippets, ∀ source, sources[s.source]? = some source →
      1 ≤ s.line ∧ s.line ≤ source.lineCount) :
    d.DrawnAs sources look (sources.zipIdx.flatMap fun si =>
      (d.windowsOn look.context si.1 si.2).map (·.rows si.1)) ∧
    (∀ i source, sources[i]? = some source →
      DrawnOnce d look source i (d.windowsOn look.context source i)) ∧
    ∀ colors, (d.known sources).draw sources look colors = d.draw sources look colors := by
  refine ⟨?_, fun i source hsource => ?_, fun colors => ?_⟩
  · rw [← groups_eq]
    exact d.drawnAs_windows sources look
  · refine d.drawnOnce_windowsOn look fun s hs hi => ?_
    exact hlines s hs source (hi ▸ hsource)
  · exact d.drawOn_known (.standard colors) sources look

end Whole

def sevenLines : Text.Source := ⟨"a.c", "a\nb\nc\nd\ne\nf\ng"⟩

/-- Two labels on the sixth line, one on the second, and one on a source that
is not there. -/
def scattered : Diagnostic where
  message := none
  snippets := [⟨"late", .primary, 0, 6⟩, ⟨"early", .secondary, 0, 2⟩, ⟨"again", .primary, 0, 6⟩,
    ⟨"lost", .primary, 3, 1⟩]

theorem lineCount_sevenLines : sevenLines.lineCount = 7 := by decide +kernel

theorem lines_scattered : ∀ s ∈ scattered.snippets, ∀ source,
    [sevenLines][s.source]? = some source → 1 ≤ s.line ∧ s.line ≤ source.lineCount := by
  intro s hs source hsource
  simp only [scattered, List.mem_cons, List.not_mem_nil, or_false] at hs
  rcases hs with rfl | rfl | rfl | rfl <;> cases hsource <;> rw [lineCount_sevenLines] <;> decide

/-- The rows of `scattered`, in two groups that leave out the fourth line. -/
def scatteredRows : List (List Row) :=
  [[.place "a.c" 2, .numbered 1 ['a'], .numbered 2 ['b'], .label ⟨"early", .secondary, 0, 2⟩ ['b'],
      .numbered 3 ['c'], .gap],
    [.place "a.c" 6, .numbered 5 ['e'], .numbered 6 ['f'], .label ⟨"late", .primary, 0, 6⟩ ['f'],
      .label ⟨"again", .primary, 0, 6⟩ ['f'], .numbered 7 ['g'], .gap]]

theorem groups_scattered : [sevenLines].zipIdx.flatMap (fun si =>
    (scattered.windowsOn 1 si.1 si.2).map (·.rows si.1)) = scatteredRows := by
  cbv

/-- Both labels of the sixth line are drawn below it, and the one on a source
that is not there is not. -/
theorem drawn_once_scattered :
    (∀ s ∈ scattered.snippets, ∀ source, [sevenLines][s.source]? = some source →
      1 ≤ s.line ∧ s.line ≤ source.lineCount) ∧
    scattered.DrawnAs [sevenLines] { } scatteredRows ∧
    DrawnOnce scattered { } sevenLines 0 (scattered.windowsOn 1 sevenLines 0) := by
  obtain ⟨hdrawn, honce, -⟩ := drawn_once scattered [sevenLines] { } lines_scattered
  rw [groups_scattered] at hdrawn
  exact ⟨lines_scattered, hdrawn, honce 0 sevenLines rfl⟩

end MiniC.Diagnostic
