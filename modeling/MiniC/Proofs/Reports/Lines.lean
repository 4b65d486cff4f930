/-
  MiniC.Proofs.Reports.Lines

  **A fault is reported on a line of the text.**

  Lines are passed on as they come: a relabelling that leaves the lines of all
  tokens alone moves no fault, so the line of a fault is that of a token
  (`line_of_parse`).  It is a line of the text, and what a message quotes is
  that line without the blanks around it (`trim_lineAt`).
-/
import MiniC.Proofs.Relabelling.Modules
import MiniC.Proofs.Relabelling.Outlines
import MiniC.Proofs.Reports.Slices
import MiniC.Proofs.Scanning.Lines
import MiniC.Compile

namespace MiniC

/-! ## §1. The line of a token -/

/-- Every line but the given ones is moved. -/
def Relabelling.moving (kept : List Nat) : Relabelling :=
  ⟨.refl _, fun line => if line ∈ kept then line else line + 1, .refl _⟩

/-- Only the lines kept stay where they are. -/
theorem Relabelling.line_moving {kept : List Nat} {line : Nat} :
    (moving kept).line line = line ↔ line ∈ kept := by
  show (if line ∈ kept then line else line + 1) = line ↔ _
  split
  · exact ⟨fun _ => ‹_›, fun _ => rfl⟩
  · exact ⟨fun h => absurd h (Nat.succ_ne_self line), fun h => absurd h ‹_›⟩

/-- **The line of a fault is the line of a token**, or of the end of the
text. -/
theorem line_of_parse {text : String} {f : Fault} (h : parse text = .error f) :
    ∃ t ∈ (Scan.tokens text).withEnd, t.line = f.line := by
  -- moving all other lines changes nothing in the text, so it does not move the fault
  let φ := Relabelling.moving ((Scan.tokens text).withEnd.map (·.line))
  have hline : ∀ t ∈ (Scan.tokens text).withEnd, φ.line t.line = t.line :=
    fun t ht => Relabelling.line_moving.2 (List.mem_map_of_mem ht)
  have hlist : (Scan.tokens text).list.map φ.token = (Scan.tokens text).list := by
    have htoken : ∀ t ∈ (Scan.tokens text).list, φ.token t = t := by
      intro t ht
      rw [Relabelling.token, Relabelling.kind_of_name fun _ => rfl,
        hline t (List.mem_append_left _ ht)]
    rw [List.map_congr_left htoken, List.map_id']
  have hend : φ.line (Scan.tokens text).endLine = (Scan.tokens text).endLine :=
    hline _ (List.mem_append_right _ List.mem_cons_self)
  have houtline := φ.ofTokens_relabelled (Scan.tokens text)
  rw [hlist, hend] at houtline
  have hfollows : φ.Follows True φ.Programs (parse text) (parse text) := by
    have hprogram : φ.Follows True φ.Programs (parse text) _ :=
      Relabelling.program_follows (fun _ => rfl) (Outline.ofTokens (Scan.tokens text))
    rwa [← houtline] at hprogram
  have hfault := hfollows.error h trivial
  rw [h] at hfault
  have hmoved : f.line = φ.line f.line := congrArg Fault.line (Except.error.inj hfault)
  exact List.mem_map.1 (Relabelling.line_moving.1 hmoved.symm)

/-- **A fault is reported on a line of the text.** -/
theorem line_bounds_of_parse {text : String} {f : Fault} (h : parse text = .error f) :
    1 ≤ f.line ∧ f.line ≤ text.toList.count '\n' + 1 := by
  obtain ⟨t, ht, hline⟩ := line_of_parse h
  have hbounds := Scan.lines_tokensFrom (.start text) t ht
  rw [← hline, Nat.add_comm]
  exact hbounds

/-! ## §2. The line that is quoted -/

namespace Text

/-- A carriage return at the end is trimmed in any case. -/
theorem trim_dropReturn (line : List Char) : trim (dropReturn line) = trim line := by
  unfold dropReturn dropEnd
  split
  case isFalse => rfl
  case isTrue hlast =>
    obtain ⟨front, rfl⟩ := List.getLast?_eq_some_iff.1 hlast
    have hblank : isBlank '\r' = true := by decide
    rw [List.dropLast_concat, trim, trim, trimStart, trimStart, List.dropWhile_append]
    split
    · -- a blank line
      rename_i hempty
      rw [List.isEmpty_iff.1 hempty, List.dropWhile_cons_of_pos hblank]
      rfl
    · rw [trimEnd, trimEnd, List.reverse_append]
      show _ = (List.dropWhile isBlank ('\r' :: (List.dropWhile isBlank front).reverse)).reverse
      rw [List.dropWhile_cons_of_pos hblank]

/-- Each line is quoted as it is counted, but for blanks at its end. -/
theorem trim_go {ls : List (List Char)} {n : Nat} {line : List Char} (h : ls[n]? = some line) :
    trim ((terminatedLines.go ls)[n]?.getD []) = trim (dropReturn line) := by
  fun_induction terminatedLines.go ls generalizing n with
  | case1 => cases h
  | case2 last hempty =>
    cases n with
    | zero =>
      cases h
      rw [List.isEmpty_iff.1 hempty]
      rfl
    | succ n => cases h
  | case3 last _ =>
    cases n with
    | zero =>
      cases h
      exact (trim_dropReturn _).symm
    | succ n => cases h
  | case4 first rest _ ih =>
    cases n with
    | zero =>
      cases h
      rfl
    | succ n => exact ih h

/-- **What is quoted of a line is the line as it is shown, trimmed.** -/
theorem trim_lineAt {source : Source} {n : Nat} (hpos : 1 ≤ n) (hle : n ≤ source.lineCount) :
    ∃ line, source.line? (n - 1) = some line ∧ trim (lineAt source.text n) = trim line := by
  obtain ⟨n, rfl⟩ := Nat.exists_eq_add_of_le' hpos
  have hlt : n < (splitLines source.text.toList).length := by
    rw [length_splitLines, ← source.lineCount_eq]
    exact hle
  refine ⟨dropReturn (splitLines source.text.toList)[n], ?_, ?_⟩
  · rw [Nat.add_sub_cancel, source.line?_eq, List.getElem?_eq_getElem hlt]
    rfl
  · exact trim_go (List.getElem?_eq_getElem hlt)

end Text

end MiniC
