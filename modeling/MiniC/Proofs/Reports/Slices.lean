/-
  MiniC.Proofs.Reports.Slices

  **Lines are slices of the text, and no slice fails.**

  The text is its lines with newlines between them.  What stands before a line
  is the lines before it, each with its newline (`textBefore`), and a line
  starts at the byte after that (`lineStart?_eq`).  So the text splits there
  between two characters, and again where the next line starts: the slice is
  the line with its newline, or the last line (`slice?_line`).
-/
import MiniC.Text.Lines

namespace MiniC.Text

variable {lines : List (List Char)} {i : Nat}

/-! ## §1. Bytes -/

@[simp] theorem byteCount_nil : byteCount [] = 0 := rfl

@[simp] theorem byteCount_cons (c : Char) (cs : List Char) :
    byteCount (c :: cs) = c.utf8Size + byteCount cs := rfl

@[simp] theorem byteCount_append (cs ds : List Char) :
    byteCount (cs ++ ds) = byteCount cs + byteCount ds := by
  induction cs with
  | nil => simp
  | cons c cs ih => rw [List.cons_append, byteCount_cons, byteCount_cons, ih, Nat.add_assoc]

/-- The bytes are those of the text in UTF-8. -/
theorem byteCount_eq (cs : List Char) : byteCount cs = (String.ofList cs).utf8ByteSize := by
  induction cs with
  | nil => rfl
  | cons c cs ih =>
    rw [byteCount_cons, ih, String.ofList_cons, String.utf8ByteSize_append,
      String.utf8ByteSize_singleton]

/-- Bytes can be cut off where characters end. -/
theorem cutBytes?_append (front rest : List Char) :
    cutBytes? (byteCount front) (front ++ rest) = some (front, rest) := by
  induction front with
  | nil => rw [byteCount_nil, List.nil_append, cutBytes?]
  | cons c front ih =>
    obtain ⟨n, hn⟩ : ∃ n, byteCount (c :: front) = n + 1 := by
      have hpos := c.utf8Size_pos
      exact ⟨c.utf8Size + byteCount front - 1, by rw [byteCount_cons]; omega⟩
    have hle : c.utf8Size ≤ n + 1 := by
      rw [byteCount_cons] at hn
      omega
    have hrest : n + 1 - c.utf8Size = byteCount front := by
      rw [byteCount_cons] at hn
      omega
    rw [hn, List.cons_append, cutBytes?, if_pos hle, hrest, ih]
    rfl

/-- A slice between characters is what stands there. -/
theorem slice?_append (front piece rest : List Char) :
    slice? (front ++ (piece ++ rest)) (byteCount front) (byteCount (front ++ piece)) =
      some piece := by
  have hle : byteCount front ≤ byteCount (front ++ piece) := by
    rw [byteCount_append]
    omega
  have hlen : byteCount (front ++ piece) - byteCount front = byteCount piece := by
    rw [byteCount_append]
    omega
  rw [slice?, if_pos hle, cutBytes?_append, Option.bind_some, hlen, cutBytes?_append,
    Option.map_some]

/-! ## §2. Lines in a text -/

/-- Lines are what stands between the breaks. -/
theorem splitLines_eq_splitOn (cs : List Char) : splitLines cs = cs.splitOn '\n' := by
  induction cs with
  | nil => rfl
  | cons c cs ih =>
    rw [splitLines, List.splitOn_cons_eq_if_modifyHead, ih]
    by_cases hc : c = '\n'
    · simp [hc]
    · rw [if_neg hc, if_neg (by simpa using hc)]
      cases h : cs.splitOn '\n' with
      | nil => exact absurd h (List.splitOn_ne_nil _ _)
      | cons line rest => rfl

/-- No newline is left in a line. -/
theorem newline_notMem_splitOn {cs line : List Char} (h : line ∈ cs.splitOn '\n') :
    '\n' ∉ line := by
  induction cs generalizing line with
  | nil =>
    rw [List.splitOn_nil, List.mem_singleton] at h
    simp [h]
  | cons c cs ih =>
    rw [List.splitOn_cons_eq_if_modifyHead] at h
    split at h
    · rcases List.mem_cons.1 h with rfl | h
      · exact List.not_mem_nil
      · exact ih h
    · rename_i hc
      obtain ⟨first, lines, hlines⟩ := List.exists_cons_of_ne_nil (List.splitOn_ne_nil '\n' cs)
      rw [hlines, List.modifyHead_cons, List.mem_cons] at h
      rcases h with rfl | h
      · intro hmem
        rcases List.mem_cons.1 hmem with heq | hmem
        · exact hc (beq_iff_eq.2 heq.symm)
        · exact ih (hlines ▸ List.mem_cons_self) hmem
      · exact ih (hlines ▸ List.mem_cons_of_mem first h)

/-- What stands before line `i`: the lines before it, each with its newline. -/
def textBefore (lines : List (List Char)) (i : Nat) : List Char :=
  (lines.take i).flatMap (· ++ ['\n'])

theorem textBefore_succ {line : List Char} (h : lines[i]? = some line) :
    textBefore lines (i + 1) = textBefore lines i ++ (line ++ ['\n']) := by
  rw [textBefore, List.take_add_one, h, List.flatMap_append]
  simp [textBefore]

theorem textBefore_cons (line : List Char) (lines : List (List Char)) (i : Nat) :
    textBefore (line :: lines) (i + 1) = line ++ '\n' :: textBefore lines i := by
  simp [textBefore]

/-- The text is what stands before a line, and the lines from there on. -/
theorem textBefore_append (h : i < lines.length) :
    textBefore lines i ++ ['\n'].intercalate (lines.drop i) = ['\n'].intercalate lines := by
  induction i generalizing lines with
  | zero => rfl
  | succ i ih =>
    cases lines with
    | nil => cases h
    | cons line lines =>
      have hlt : i < lines.length := Nat.lt_of_succ_lt_succ h
      have hne : lines ≠ [] := List.ne_nil_of_length_pos (Nat.zero_lt_of_lt hlt)
      rw [textBefore_cons, List.drop_succ_cons, List.intercalate_cons_of_ne_nil hne, ← ih hlt]
      simp

/-- Lines further down start further on. -/
theorem textBefore_lt {j : Nat} (hij : i < j) (hj : j ≤ lines.length) :
    byteCount (textBefore lines i) < byteCount (textBefore lines j) := by
  induction j with
  | zero => cases hij
  | succ j ih =>
    have hline : lines[j]? = some lines[j] := List.getElem?_eq_getElem hj
    have hstep : byteCount (textBefore lines j) < byteCount (textBefore lines (j + 1)) := by
      rw [textBefore_succ hline, byteCount_append, byteCount_append]
      have hsize : byteCount ['\n'] = 1 := rfl
      omega
    rcases Nat.lt_or_eq_of_le (Nat.le_of_lt_succ hij) with hlt | rfl
    · have hlater := ih hlt (Nat.le_of_succ_le hj)
      omega
    · exact hstep

/-- **Where the lines start**: the first one where the text does, and each other
one after what stands before it. -/
theorem starts_eq (byte : Nat) (cs : List Char) (i : Nat) :
    (byte :: (breaksFrom byte cs).map (· + 1))[i]? =
      (cs.splitOn '\n')[i]?.map fun _ => byte + byteCount (textBefore (cs.splitOn '\n') i) := by
  induction cs generalizing byte i with
  | nil => cases i <;> simp [breaksFrom, textBefore]
  | cons c cs ih =>
    rw [List.splitOn_cons_eq_if_modifyHead]
    by_cases hc : c = '\n'
    · subst hc
      rw [breaksFrom, if_pos rfl, if_pos (by simp)]
      cases i with
      | zero => simp [textBefore]
      | succ i =>
        have hsize : ('\n').utf8Size = 1 := rfl
        rw [List.getElem?_cons_succ, List.getElem?_cons_succ, List.map_cons, hsize, ih]
        simp [textBefore_cons, hsize, Nat.add_assoc]
    · rw [breaksFrom, if_neg hc, if_neg (by simpa using hc)]
      obtain ⟨line, lines, hlines⟩ := List.exists_cons_of_ne_nil (List.splitOn_ne_nil '\n' cs)
      rw [hlines, List.modifyHead_cons]
      cases i with
      | zero => simp [textBefore]
      | succ i =>
        -- the line goes on, so its first character only moves the lines after it
        have hlater := ih (byte + c.utf8Size) (i + 1)
        rw [hlines, List.getElem?_cons_succ, List.getElem?_cons_succ] at hlater
        rw [List.getElem?_cons_succ, List.getElem?_cons_succ, hlater]
        simp [textBefore_cons, Nat.add_assoc]

namespace Source

variable (s : Source)
variable {i a : Nat}

/-- The lines of the text, with their carriage returns. -/
def segments : List (List Char) := s.text.toList.splitOn '\n'

theorem intercalate_segments : ['\n'].intercalate s.segments = s.text.toList :=
  List.intercalate_splitOn '\n'

/-- A line starts after the bytes before it. -/
theorem lineStart?_eq (i : Nat) :
    s.lineStart? i = s.segments[i]?.map fun _ => byteCount (textBefore s.segments i) := by
  have hstarts := starts_eq 0 s.text.toList i
  simp only [Nat.zero_add] at hstarts
  rw [segments, ← hstarts]
  cases i with
  | zero => rfl
  | succ i => rw [List.getElem?_cons_succ, List.getElem?_map]; rfl

theorem length_segments : s.segments.length = s.lineCount := by
  rw [segments, ← splitLines_eq_splitOn, length_splitLines, lineCount_eq]

/-- **A line is sliced out of the text** with its newline, if it has one. -/
theorem slice?_line {line : List Char} (h : s.segments[i]? = some line) :
    ∃ ending, (ending = [] ∨ ending = ['\n']) ∧
      slice? s.text.toList (byteCount (textBefore s.segments i))
        ((s.lineStart? (i + 1)).getD (byteCount s.text.toList)) = some (line ++ ending) := by
  obtain ⟨hlt, hline⟩ := List.getElem?_eq_some_iff.1 h
  have htext := textBefore_append hlt
  rw [intercalate_segments, List.drop_eq_getElem_cons hlt, hline] at htext
  rw [lineStart?_eq]
  cases hrest : s.segments.drop (i + 1) with
  | nil =>
    -- the last line ends with the text
    have hnone : s.segments[i + 1]? = none := by
      rw [List.getElem?_eq_none_iff]
      exact List.drop_eq_nil_iff.1 hrest
    refine ⟨[], .inl rfl, ?_⟩
    rw [hrest, List.intercalate_singleton] at htext
    have hslice := slice?_append (textBefore s.segments i) line []
    rw [List.append_nil, htext] at hslice
    rw [hnone, List.append_nil]
    exact hslice
  | cons next later =>
    have hsome : s.segments[i + 1]? = some next := by
      rw [← List.head?_drop, hrest, List.head?_cons]
    refine ⟨['\n'], .inr rfl, ?_⟩
    rw [hrest, List.intercalate_cons_cons] at htext
    have hslice := slice?_append (textBefore s.segments i) (line ++ ['\n'])
      (['\n'].intercalate (next :: later))
    rw [htext, ← textBefore_succ h] at hslice
    rw [hsome]
    exact hslice

/-- **A line is what stands between two newlines**, without a carriage return at
its end. -/
theorem line?_eq_segments (i : Nat) : s.line? i = s.segments[i]?.map dropReturn := by
  unfold line?
  rw [lineStart?_eq]
  cases h : s.segments[i]? with
  | none => rfl
  | some line =>
    obtain ⟨ending, hending, hslice⟩ := s.slice?_line h
    have hdrop : dropEnd '\n' (line ++ ending) = line := by
      rcases hending with rfl | rfl
      · have hnot := newline_notMem_splitOn (List.mem_of_getElem? h)
        rw [List.append_nil, dropEnd, if_neg]
        intro hlast
        exact hnot (List.mem_of_getLast? hlast)
      · simp [dropEnd]
    show ((slice? _ _ _).bind fun piece => some (dropReturn (dropEnd '\n' piece))) = _
    rw [hslice, Option.bind_some, hdrop]
    rfl

theorem line?_eq (i : Nat) : s.line? i = (splitLines s.text.toList)[i]?.map dropReturn := by
  rw [line?_eq_segments, segments, splitLines_eq_splitOn]

/-! ## §3. Starts and slices -/

theorem isSome_segments (i : Nat) : s.segments[i]?.isSome = true ↔ i < s.lineCount := by
  rw [← length_segments]
  simp

theorem isSome_lineStart? (i : Nat) : (s.lineStart? i).isSome = true ↔ i < s.lineCount := by
  rw [lineStart?_eq, Option.isSome_map, isSome_segments]

theorem isSome_line? (i : Nat) : (s.line? i).isSome = true ↔ i < s.lineCount := by
  rw [line?_eq_segments, Option.isSome_map, isSome_segments]

variable {s}

/-- A start is the length of what stands before its line. -/
theorem exists_of_lineStart? (h : s.lineStart? i = some a) :
    ∃ seg, s.segments[i]? = some seg ∧ a = byteCount (textBefore s.segments i) := by
  rw [lineStart?_eq, Option.map_eq_some_iff] at h
  obtain ⟨seg, hseg, rfl⟩ := h
  exact ⟨seg, hseg, rfl⟩

/-- Later lines start later. -/
theorem lineStart?_lt {j b : Nat} (hi : s.lineStart? i = some a) (hj : s.lineStart? j = some b)
    (hij : i < j) : a < b := by
  obtain ⟨_, _, rfl⟩ := exists_of_lineStart? hi
  obtain ⟨_, hseg, rfl⟩ := exists_of_lineStart? hj
  exact textBefore_lt hij (Nat.le_of_lt (List.getElem?_eq_some_iff.1 hseg).1)

/-- The text splits where a line starts. -/
theorem exists_append_of_lineStart? (h : s.lineStart? i = some a) :
    ∃ before after, s.text = before ++ after ∧ a = before.utf8ByteSize ∧
      before.toList = textBefore s.segments i := by
  obtain ⟨seg, hseg, rfl⟩ := exists_of_lineStart? h
  have htext := textBefore_append (List.getElem?_eq_some_iff.1 hseg).1
  rw [intercalate_segments] at htext
  refine ⟨.ofList (textBefore s.segments i), .ofList (['\n'].intercalate (s.segments.drop i)), ?_,
    byteCount_eq _, String.toList_ofList⟩
  rw [← String.ofList_append, htext, String.ofList_toList]

/-- What is left of a line without its carriage return. -/
theorem dropReturn_cases (seg : List Char) :
    seg = dropReturn seg ++ ['\r'] ∨ seg = dropReturn seg ∧ ¬ ['\r'] <:+ seg := by
  unfold dropReturn dropEnd
  split
  · rename_i hlast
    obtain ⟨front, rfl⟩ := List.getLast?_eq_some_iff.1 hlast
    exact .inl (by simp)
  · rename_i hlast
    refine .inr ⟨rfl, ?_⟩
    rintro ⟨front, rfl⟩
    exact hlast List.getLast?_concat

/-- **The lines of a text are found exactly.**  There is one more than newlines,
and each is found by its number, as is the byte where it starts.  The bytes
rise from line to line, each lies between two characters, and each is the
length of the text before the line.  The text up to the next of them, or to
the end, is a slice that can be taken, and what is shown is the line without a
carriage return at its end.  The lines, with newlines between them, are the
text. -/
theorem lines_exact (s : Source) :
    s.lineCount = 1 + s.text.toList.count '\n' ∧
    (∀ i, (s.lineStart? i).isSome = true ↔ i < s.lineCount) ∧
    (∀ i, (s.line? i).isSome = true ↔ i < s.lineCount) ∧
    (∀ i j a b, s.lineStart? i = some a → s.lineStart? j = some b → i < j → a < b) ∧
    (∀ i a, s.lineStart? i = some a → String.Pos.Raw.IsValid s.text ⟨a⟩ ∧
      (slice? s.text.toList a ((s.lineStart? (i + 1)).getD s.text.utf8ByteSize)).isSome = true ∧
      ∃ before after, s.text = before ++ after ∧ a = before.utf8ByteSize ∧
        before.toList = textBefore (s.text.toList.splitOn '\n') i) ∧
    (∀ i seg, (s.text.toList.splitOn '\n')[i]? = some seg → '\n' ∉ seg ∧
      ∃ line, s.line? i = some line ∧
        (seg = line ++ ['\r'] ∨ seg = line ∧ ¬ ['\r'] <:+ seg)) ∧
    (s.text.toList.splitOn '\n').length = s.lineCount ∧
    ['\n'].intercalate (s.text.toList.splitOn '\n') = s.text.toList := by
  refine ⟨by rw [lineCount_eq, Nat.add_comm], s.isSome_lineStart?, s.isSome_line?,
    fun _ _ _ _ => lineStart?_lt, ?_, ?_, s.length_segments, s.intercalate_segments⟩
  · intro i a h
    obtain ⟨before, after, htext, hlen, hbefore⟩ := exists_append_of_lineStart? h
    refine ⟨?_, ?_, before, after, htext, hlen, hbefore⟩
    · exact String.Pos.Raw.isValid_iff_exists_append.2 ⟨before, after, htext,
        String.Pos.Raw.ext hlen⟩
    · obtain ⟨seg, hseg, rfl⟩ := exists_of_lineStart? h
      obtain ⟨ending, _, hslice⟩ := s.slice?_line hseg
      rw [byteCount_eq s.text.toList, String.ofList_toList] at hslice
      rw [hslice]
      rfl
  · intro i seg h
    refine ⟨newline_notMem_splitOn (List.mem_of_getElem? h), dropReturn seg, ?_,
      dropReturn_cases seg⟩
    have h : s.segments[i]? = some seg := h
    rw [line?_eq_segments, h]
    rfl

end Source

end MiniC.Text
