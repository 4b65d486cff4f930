/-
  MiniC.Proofs.Invariance.Layout

  **The layout of a text does not matter.**

  Lines are carried along and never looked at: with all of them forgotten
  (`lineless`), a text is compiled as before, up to the line of the fault.  So
  what a text compiles to depends on the kinds of its tokens alone
  (`compile_eq_of_kinds`).  And after any token blanks and closed comments may
  be inserted, if a blank comes first: the kinds stay (`kinds_insertAfter`).
-/
import MiniC.Proofs.Checking.Malformed
import MiniC.Proofs.Relabelling.Modules
import MiniC.Proofs.Relabelling.Outlines
import MiniC.Proofs.Scanning.Splicing

namespace MiniC

open Relabelling (lineless)
open Text (Cursor)

/-! ## §1. Forgetting lines -/

/-- The outline of tokens of these kinds, all on one line. -/
def Outline.ofKinds (ks : List Kind) : List Outline.Item :=
  Outline.ofTokens ⟨ks.map (⟨·, 0⟩), 0⟩

/-- **The outline of a text without its lines is that of the kinds of its
tokens.** -/
theorem Outline.map_lineless (ts : Scan.Tokens) :
    (Outline.ofTokens ts).map lineless.item = Outline.ofKinds (kinds ts.list) := by
  have htoken : lineless.token = fun t => ⟨t.kind, 0⟩ := by
    funext t
    rw [Relabelling.token, Relabelling.kind_of_name fun _ => rfl]
    rfl
  rw [← Relabelling.ofTokens_relabelled, htoken, Outline.ofKinds, kinds, List.map_map]
  rfl

/-- **Without its lines, a text is compiled as before**, but for the line of
the fault. -/
theorem compile_lineless (text : String) :
    (compile text).mapError (·.cause) =
      ((Check.program (Outline.ofKinds (kinds (Scan.tokens text).list))).map fun p =>
        (Lower.program p).text).mapError (·.cause) := by
  rw [← Outline.map_lineless]
  have hfollows : lineless.Follows True (fun p p' => Lower.program p' = Lower.program p)
      (parse text) (Check.program ((Outline.ofTokens (Scan.tokens text)).map lineless.item)) :=
    Relabelling.module_follows (fun _ => rfl) _ fun _ _ => ⟨fun _ => rfl, fun _ => rfl⟩
  unfold compile compileModule
  cases hparse : parse text with
  | error f =>
    rw [hfollows.error hparse trivial]
    show Except.error f.cause = Except.error (lineless.cause f.cause)
    rw [Relabelling.cause_of_name fun _ => rfl]
  | ok p =>
    obtain ⟨p', hp', hmodule⟩ := hfollows.ok hparse
    rw [hp']
    show Except.ok (Lower.program p).text = Except.ok (Lower.program p').text
    rw [hmodule]

/-- **What a text compiles to depends on the kinds of its tokens.** -/
theorem compile_eq_of_kinds {text text' : String}
    (h : kinds (Scan.tokens text).list = kinds (Scan.tokens text').list) :
    (compile text).mapError (·.cause) = (compile text').mapError (·.cause) := by
  rw [compile_lineless, compile_lineless, h]

/-! ## §2. Blanks and comments after a token -/

/-- The text with `gap` inserted after the last character of the token that has
`n` tokens before it. -/
def insertAfter (text : String) (n : Nat) (gap : Cursor) : String :=
  let rest := ((Scan.Place.start text).beyond (n + 1)).rest
  String.ofList (Scan.upTo (Cursor.ofString text) rest ++ (gap ++ rest))

-- after the plus, and before the blank that stood there
example : insertAfter "a+ b" 1 "\n/* */".toList = "a+\n/* */ b" := by cbv

theorem kinds_tokens (text : String) :
    kinds (Scan.tokens text).list = Scan.kindsOf (Cursor.ofString text) :=
  Scan.kinds_tokensFrom (.start text)

/-- **Blanks and comments may follow any token**, if a blank comes first. -/
theorem kinds_insertAfter {text : String}
    (hvalid : ∀ t ∈ (Scan.tokens text).list, t.kind.isValid = true) {n : Nat}
    (hn : n < (Scan.tokens text).list.length) {white : Char} (hwhite : Scan.isWhite white = true)
    {gap : Cursor} (hgap : Scan.Trivia gap) :
    kinds (Scan.tokens (insertAfter text n (white :: gap))).list =
      kinds (Scan.tokens text).list := by
  have htake : ∀ t ∈ (Scan.tokens text).list.take (n + 1), t.kind.isValid = true :=
    fun t ht => hvalid t (List.mem_of_mem_take ht)
  rw [kinds_tokens, kinds_tokens, insertAfter, Cursor.ofString, String.toList_ofList]
  calc Scan.kindsOf (Scan.upTo (Cursor.ofString text)
        ((Scan.Place.start text).beyond (n + 1)).rest ++
          (white :: gap ++ ((Scan.Place.start text).beyond (n + 1)).rest))
    _ = (Scan.kindsOf (Cursor.ofString text)).take (n + 1) ++
        Scan.kindsOf (white :: gap ++ ((Scan.Place.start text).beyond (n + 1)).rest) :=
      Scan.kindsOf_splice htake hn (.blank _ hwhite)
    _ = (Scan.kindsOf (Cursor.ofString text)).take (n + 1) ++
        Scan.kindsOf ((Scan.Place.start text).beyond (n + 1)).rest := by
      rw [Scan.kindsOf_trivia (.blank hwhite hgap)]
    _ = Scan.kindsOf (Cursor.ofString text) := (Scan.kindsOf_beyond htake hn).symm

/-! ## §3. Layout -/

/-- **The layout of a text does not matter.**  Two texts whose tokens differ in
nothing but their lines compile to the same module text, or both fail with the
same category and message.  And blanks and closed comments after a token, the
first a blank, leave the tokens of a text without invalid ones as they are, but
for their lines. -/
theorem layout_irrelevant :
    (∀ text text', kinds (Scan.tokens text).list = kinds (Scan.tokens text').list →
      (∃ out, compile text = .ok out ∧ compile text' = .ok out) ∨
        ∃ f f', compile text = .error f ∧ compile text' = .error f' ∧
          f.cause.category = f'.cause.category ∧ f.cause.message = f'.cause.message) ∧
    ∀ text, (∀ t ∈ (Scan.tokens text).list, t.kind.isValid = true) →
      ∀ n < (Scan.tokens text).list.length, ∀ white gap, Scan.isWhite white = true →
        Scan.Trivia gap →
          kinds (Scan.tokens (insertAfter text n (white :: gap))).list =
            kinds (Scan.tokens text).list := by
  refine ⟨fun text text' h => ?_, fun text hvalid n hn white gap hwhite hgap =>
    kinds_insertAfter hvalid hn hwhite hgap⟩
  have hsame := compile_eq_of_kinds h
  cases hcompile : compile text with
  | ok out =>
    cases hcompile' : compile text' with
    | ok out' =>
      rw [hcompile, hcompile'] at hsame
      cases hsame
      exact .inl ⟨out, rfl, rfl⟩
    | error f' =>
      rw [hcompile, hcompile'] at hsame
      cases hsame
  | error f =>
    cases hcompile' : compile text' with
    | ok out' =>
      rw [hcompile, hcompile'] at hsame
      cases hsame
    | error f' =>
      rw [hcompile, hcompile'] at hsame
      have hcause : f.cause = f'.cause := Except.error.inj hsame
      exact .inr ⟨f, f', rfl, rfl, by rw [hcause], by rw [hcause]⟩

/-- A program on one line. -/
def tightText : String := "int f()\x7breturn 1/2;\x7d"

theorem kinds_tightText : kinds (Scan.tokens tightText).list =
    [.keyword .kwInt, .identifier "f", .punct .lparen, .punct .rparen, .punct .lbrace,
      .keyword .kwReturn, .integer 1, .punct .slash, .integer 2, .punct .semicolon,
      .punct .rbrace] := by
  cbv

/-- The same program with other blanks, and with comments. -/
def looseText : String := "int\nf ( ) \x7b // half\n  return 1 / 2;\n\x7d\n"

theorem kinds_looseText :
    kinds (Scan.tokens looseText).list = kinds (Scan.tokens tightText).list := by
  rw [kinds_tightText]
  cbv

/-- A division may be followed by a comment after a blank, though not at
once. -/
theorem layout_irrelevant_division :
    (kinds (Scan.tokens tightText).list = kinds (Scan.tokens looseText).list ∧
      ((∃ out, compile tightText = .ok out ∧ compile looseText = .ok out) ∨
        ∃ f f', compile tightText = .error f ∧ compile looseText = .error f' ∧
          f.cause.category = f'.cause.category ∧ f.cause.message = f'.cause.message)) ∧
    (∀ t ∈ (Scan.tokens tightText).list, t.kind.isValid = true) ∧
      7 < (Scan.tokens tightText).list.length ∧
      kinds (Scan.tokens (insertAfter tightText 7 " /* by */".toList)).list =
        kinds (Scan.tokens tightText).list := by
  have hkinds := kinds_looseText.symm
  have hvalid : ∀ t ∈ (Scan.tokens tightText).list, t.kind.isValid = true := by
    have hall : ∀ k ∈ kinds (Scan.tokens tightText).list, k.isValid = true := by
      rw [kinds_tightText]
      decide
    exact fun t ht => hall t.kind (List.mem_map_of_mem ht)
  have hlength : 7 < (Scan.tokens tightText).list.length := by
    rw [← List.length_map Token.kind]
    show 7 < (kinds (Scan.tokens tightText).list).length
    rw [kinds_tightText]
    decide
  have hgap : Scan.Trivia "/* by */".toList := by
    show Scan.Trivia ('/' :: '*' :: (" by ".toList ++ ['*', '/']))
    exact .block (by decide) .nil
  exact ⟨⟨hkinds, layout_irrelevant.1 _ _ hkinds⟩, hvalid, hlength,
    layout_irrelevant.2 _ hvalid 7 hlength ' ' _ rfl hgap⟩

end MiniC
