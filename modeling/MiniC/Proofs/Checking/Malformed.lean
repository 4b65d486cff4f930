/-
  MiniC.Proofs.Checking.Malformed

  **Malformed text is never passed over.**

  A text that compiles was read to its end, so all of its tokens are valid.  A
  fault about malformed text is not the checker's own, so it is one that
  reading met: it is about the first token that was not taken, and all tokens
  before that one are valid.
-/
import MiniC.Proofs.Checking.Whole
import MiniC.Proofs.Reading.Faults
import MiniC.Proofs.Typing.Items

namespace MiniC

variable {text : String}

/-! ## §1. Reading and checking -/

/-- Lowering and writing never fail. -/
theorem parse_of_compile_ok {out : String} (h : compile text = .ok out) :
    ∃ p, parse text = .ok p := by
  obtain ⟨_, hmodule, _⟩ := bind_eq_ok.1 h
  obtain ⟨p, hp, _⟩ := bind_eq_ok.1 hmodule
  exact ⟨p, hp⟩

/-- Compiling fails where parsing does. -/
theorem parse_of_compile_error {f : Fault} (h : compile text = .error f) :
    parse text = .error f := by
  rcases Check.bind_eq_error.1 h with h | ⟨_, _, h⟩
  · rcases Check.bind_eq_error.1 h with h | ⟨_, _, h⟩
    · exact h
    · cases h
  · cases h

/-- What is checked to pass passes. -/
theorem exists_parse (h : (parse text).toBool = true) : ∃ p, parse text = .ok p := by
  cases hparse : parse text with
  | ok p => exact ⟨p, rfl⟩
  | error f =>
    rw [hparse] at h
    cases h

theorem compile_of_parse_ok {p : Program} (h : parse text = .ok p) :
    compile text = .ok (Lower.program p).text := by
  rw [compile, compileModule, h]
  rfl

theorem compile_of_parse_error {f : Fault} (h : parse text = .error f) :
    compile text = .error f := by
  rw [compile, compileModule, h]
  rfl

/-- The tokens of whole items are valid. -/
theorem valid_of_whole {ts : Scan.Tokens} (h : ∀ i ∈ Outline.ofTokens ts, i.whole = true) :
    ∀ t ∈ ts.list, t.kind.isValid = true := by
  have hheard := Outline.readItems_heard ts.endLine (Outline.Reached.refl ts.list)
  obtain ⟨taken, htaken, hvalid⟩ := hheard.2 h
  rw [← htaken, List.append_nil]
  exact hvalid

/-- All tokens of an accepted text are valid. -/
theorem valid_of_parse {p : Program} (h : parse text = .ok p) :
    ∀ t ∈ (Scan.tokens text).list, t.kind.isValid = true := by
  obtain ⟨found, hitems, _⟩ := bind_eq_ok.1 h
  exact valid_of_whole (Check.whole_of_items hitems)

/-- The checker's own complaints are not about malformed text. -/
theorem Cause.not_lexical_of_ofChecking {c : Cause} (h : c.ofChecking = true) :
    c.category ≠ .lexical := by
  rintro hc
  cases c <;> cases hc
  cases h

/-- The shape of a run is no lexical matter. -/
theorem not_lexical_of_shapeFaults {f : Fault} (h : f ∈ Precedence.shapeFaults) :
    f.cause.category ≠ .lexical := by
  rcases h with h | h
  · rw [h]
    nofun
  · rw [h]
    nofun

/-- A fault about malformed text is about an invalid token after valid ones. -/
theorem invalid_of_parse {f : Fault} (h : parse text = .error f)
    (hf : f.cause.category = .lexical) :
    ∃ taken m rest, (Scan.tokens text).list = taken ++ ⟨.invalid m, f.line⟩ :: rest ∧
      (∀ t ∈ taken, t.kind.isValid = true) ∧ f.cause = .malformed m := by
  have hheard := Outline.readItems_heard (Scan.tokens text).endLine
    (Outline.Reached.refl (Scan.tokens text).list)
  rcases (parse_judged text).failed h hheard.1 with hmet | hown
  · rcases hmet with hshape | ⟨ts, ⟨taken, htaken, hvalid⟩, habout⟩
    · exact absurd hf (not_lexical_of_shapeFaults hshape)
    obtain ⟨m, hm, hcause⟩ := habout.lexical hf
    cases ts with
    | nil => cases hm -- the end of the text is no invalid token
    | cons t rest =>
      refine ⟨taken, m, rest, ?_, hvalid, hcause⟩
      have ht : t = ⟨.invalid m, f.line⟩ := by
        obtain ⟨kind, line⟩ := t
        rw [habout.line, ← hm]
        rfl
      rw [← htaken, ht]
  · exact absurd hf (Cause.not_lexical_of_ofChecking hown)

/-! ## §2. Reports -/

/-- **Malformed text is never passed over.**  The tokens of a text that
compiles are all valid.  If compiling fails for malformed text, the message is
that of the first invalid token, and the line is one more than the newlines
before that token. -/
theorem malformed_reported (text : String) :
    (∀ out, compile text = .ok out → ∀ t ∈ (Scan.tokens text).list, t.kind.isValid = true) ∧
      ∀ f, compile text = .error f → f.cause.category = .lexical →
        ∃ n m, (Scan.tokens text).list[n]? = some ⟨.invalid m, f.line⟩ ∧
          (∀ t ∈ (Scan.tokens text).list.take n, t.kind.isValid = true) ∧
          f.cause.message = m.message ∧ f.line = 1 + (Scan.before text n).count '\n' := by
  constructor
  · intro out hout
    obtain ⟨p, hp⟩ := parse_of_compile_ok hout
    exact valid_of_parse hp
  · intro f hf hlexical
    obtain ⟨taken, m, rest, htokens, hvalid, hcause⟩ :=
      invalid_of_parse (parse_of_compile_error hf) hlexical
    have htoken : (Scan.tokens text).list[taken.length]? = some ⟨.invalid m, f.line⟩ := by
      rw [htokens, List.getElem?_append_right (Nat.le_refl _), Nat.sub_self]
      rfl
    refine ⟨taken.length, m, htoken, ?_, by rw [hcause]; rfl, ?_⟩
    · rw [htokens, List.take_left]
      exact hvalid
    · -- lines are counted on the places of scanning, of which the list holds the tokens
      have hbefore : ∀ j < taken.length, ((Scan.Place.start text).entry j).kind.isValid = true := by
        intro j hj
        have hj' : (Scan.tokens text).list[j]? = some taken[j] := by
          rw [htokens, List.getElem?_append_left hj, List.getElem?_eq_getElem hj]
        rw [Scan.entry_of_getElem? hj']
        exact hvalid _ (List.getElem_mem hj)
      have hline := Scan.line_of_valid hbefore
      rw [Scan.entry_of_getElem? htoken] at hline
      exact hline

/-- A character literal without its closing quote, after a comment of two
lines; the quote that follows opens another one. -/
def openQuoteText : String := "int f() \x7b\n  /* two\n lines */ return 'ab';\n\x7d"

set_option maxRecDepth 10000 in
theorem compile_openQuoteText :
    compile openQuoteText = .error ⟨.malformed .unterminatedChar, 3⟩ := by
  cbv

/-- A text that compiles has valid tokens only, and the first open quote is
reported. -/
theorem malformed_reported_quote :
    (compile sampleText = .ok (Lower.program sampleProgram).text ∧
      ∀ t ∈ (Scan.tokens sampleText).list, t.kind.isValid = true) ∧
    (compile openQuoteText = .error ⟨.malformed .unterminatedChar, 3⟩ ∧
      ∃ n m, (Scan.tokens openQuoteText).list[n]? = some ⟨.invalid m, 3⟩ ∧
        (∀ t ∈ (Scan.tokens openQuoteText).list.take n, t.kind.isValid = true) ∧
        Malformed.unterminatedChar.message = m.message ∧
        3 = 1 + (Scan.before openQuoteText n).count '\n') := by
  have hcompile : compile sampleText = .ok (Lower.program sampleProgram).text := by
    rw [compile, compileModule, parse_sampleText]
    rfl
  exact ⟨⟨hcompile, (malformed_reported sampleText).1 _ hcompile⟩, compile_openQuoteText,
    (malformed_reported openQuoteText).2 _ compile_openQuoteText rfl⟩

end MiniC
