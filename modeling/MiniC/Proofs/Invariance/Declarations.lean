/-
  MiniC.Proofs.Invariance.Declarations

  **Functions may be declared anywhere.**

  A text that defines a function may declare it wherever an item may stand, as
  often as it likes: the module stays as it is.  One declaration more
  (`Redeclaration`) puts its tokens between those of two items
  (`kinds_result`), since a text can be cut there.  The outline is put together
  in the same way (`ofKinds_append`), and there the declaration changes nothing
  but the places of functions in their table.
-/
import MiniC.Proofs.Grammar.Acceptance
import MiniC.Proofs.Invariance.Layout
import MiniC.Proofs.Relabelling.Ahead

namespace MiniC

open Grammar (derived)
open Relabelling (lineless)
open Text (Cursor)

/-! ## §1. Outlines of kinds -/

namespace Outline

variable {ks : List Kind}

section

variable {φ : Relabelling} (hname : ∀ x, φ.name x = x) (hline : ∀ line, φ.line line = 0)

include hname hline

/-- Tokens without a line are left alone. -/
theorem map_token (ks : List Kind) :
    (ks.map (Token.mk · 0)).map φ.token = ks.map (Token.mk · 0) := by
  rw [List.map_map]
  refine List.map_congr_left fun k _ => ?_
  show Token.mk (φ.kind k) (φ.line 0) = ⟨k, 0⟩
  rw [Relabelling.kind_of_name hname, hline]

/-- With no lines to forget an outline stays as it is. -/
theorem map_ofKinds (ks : List Kind) : (ofKinds ks).map φ.item = ofKinds ks := by
  rw [ofKinds, ← Relabelling.ofTokens_relabelled, map_token hname hline, hline]

end

/-- The words of a program are read as whole items. -/
theorem whole_ofKinds (h : ks ∈ derived .program) : ∀ i ∈ ofKinds ks, i.whole = true := by
  have hkinds : kinds (ks.map (⟨·, 0⟩)) = ks := by
    rw [kinds, List.map_map]
    exact List.map_id ks
  rw [← hkinds] at h
  exact fun i hi => Item.whole_of_faultsIn (faultsIn_readItems h 0 i hi)

/-- **The outline of two programs in a row is the one outline after the
other.** -/
theorem ofKinds_append {ks' : List Kind} (h : ks ∈ derived .program) (h' : ks' ∈ derived .program) :
    ofKinds (ks ++ ks') = ofKinds ks ++ ofKinds ks' := by
  have hname : ∀ x, lineless.name x = x := fun _ => rfl
  have hline : ∀ line, lineless.line line = 0 := fun _ => rfl
  have hmoved := Relabelling.readItems_moved lineless
    (Relabelling.fresh_of_whole (whole_ofKinds h')) 0 (ks.map (Token.mk · 0))
    fun _ => whole_ofKinds h
  rw [Relabelling.tokens, map_token hname hline, ← List.map_append] at hmoved
  have hfront : (ofKinds ks).map lineless.item = ofKinds ks := map_ofKinds hname hline ks
  exact hmoved.trans (congrArg (· ++ ofKinds ks') hfront)

/-- Two programs in order are one. -/
theorem append_mem_program {ks' : List Kind} (h : ks ∈ derived .program)
    (h' : ks' ∈ derived .program) : ks ++ ks' ∈ derived .program := by
  rw [Grammar.derived_eq_rules] at h h' ⊢
  have hmul : ks ++ ks' ∈ Grammar.rules derived .program * Grammar.rules derived .program :=
    Language.append_mem_mul h h'
  rwa [Grammar.rules, kstar_mul_kstar] at hmul

theorem head_relabelled {φ : Relabelling} (hname : ∀ x, φ.name x = x) (sig : Signature)
    (state : FuncState) : (φ.signature sig).head state = sig.head state := by
  show Head.mk (φ.name sig.name) sig.ret ((sig.params.map φ.param).map (·.ty)) state = _
  rw [hname, List.map_map]
  rfl

/-- Heads have no lines. -/
theorem heads_relabelled {φ : Relabelling} (hname : ∀ x, φ.name x = x) (is : List Item) :
    heads (is.map φ.item) = heads is := by
  rw [heads, heads, List.filterMap_map]
  refine List.filterMap_congr fun i _ => ?_
  cases i with
  | imported sig fault => exact congrArg some (head_relabelled hname sig _)
  | function sig body => cases body <;> exact congrArg some (head_relabelled hname sig _)
  | global d => rfl
  | broken f => rfl

end Outline

/-- A text compiles if the outline of the kinds of its tokens passes. -/
theorem compile_eq_ok {text out : String} : compile text = .ok out ↔
    ∃ p, Check.program (Outline.ofKinds (kinds (Scan.tokens text).list)) = .ok p ∧
      (Lower.program p).text = out := by
  have hsame := compile_lineless text
  cases hprogram : Check.program (Outline.ofKinds (kinds (Scan.tokens text).list)) with
  | error f =>
    rw [hprogram] at hsame
    refine ⟨fun hout => ?_, fun ⟨_, hp, _⟩ => nomatch hp⟩
    rw [hout] at hsame
    cases hsame
  | ok p =>
    rw [hprogram] at hsame
    cases hcompile : compile text with
    | error f =>
      rw [hcompile] at hsame
      cases hsame
    | ok out' =>
      rw [hcompile] at hsame
      cases hsame
      refine ⟨fun hout => ⟨p, rfl, Except.ok.inj hout⟩, ?_⟩
      rintro ⟨_, hp, rfl⟩
      cases hp
      rfl

/-! ## §2. Declarations between items -/

/-- The number of tokens in the first `k` items of a text. -/
def leadingTokens (text : String) (k : Nat) : Nat :=
  (words (Outline.marksOf ((Outline.ofTokens (Scan.tokens text)).take k))).length

/-- The tokens of an accepted text are those of its first items, and those of
the others. -/
theorem kinds_items {text : String} {p : Program} (hp : parse text = .ok p) (k : Nat) :
    leadingTokens text k ≤ (Scan.tokens text).list.length ∧
      (kinds (Scan.tokens text).list).take (leadingTokens text k) ∈ derived .program ∧
      (kinds (Scan.tokens text).list).drop (leadingTokens text k) ∈ derived .program := by
  have hfaults := (parse_judged text).passed hp
  have hsplit : kinds (Scan.tokens text).list =
      words (Outline.marksOf ((Outline.ofTokens (Scan.tokens text)).take k)) ++
        words (Outline.marksOf ((Outline.ofTokens (Scan.tokens text)).drop k)) := by
    rw [← words_marks hp, ← words_append, marks, Outline.marksOf, Outline.marksOf,
      Outline.marksOf, ← List.flatMap_append, List.take_append_drop]
  have hlength : (Scan.tokens text).list.length = (kinds (Scan.tokens text).list).length :=
    (List.length_map _).symm
  rw [hlength, hsplit, leadingTokens, List.take_left, List.drop_left, List.length_append]
  exact ⟨Nat.le_add_right _ _,
    Outline.derived_items _ fun i hi => hfaults i (List.mem_of_mem_take hi),
    Outline.derived_items _ fun i hi => hfaults i (List.mem_of_mem_drop hi)⟩

/-- The text is a declaration of a function, and no comment in it is open. -/
structure DeclaresFunction (text : String) (sig : Outline.Signature) : Prop where
  outline : Outline.ofTokens (Scan.tokens text) = [.function sig .none]
  whole : sig.fault = none
  closed : Scan.Trivia ((Scan.Place.start text).beyond (Scan.tokens text).list.length).rest

namespace DeclaresFunction

variable {text : String} {sig : Outline.Signature} (h : DeclaresFunction text sig)

include h

theorem faults : ∀ i ∈ Outline.ofTokens (Scan.tokens text), i.FaultsIn ∅ := by
  rw [h.outline]
  refine List.forall_mem_singleton.2 ⟨?_, trivial⟩
  rw [h.whole]
  exact Outline.faultIn_none ∅

theorem whole_items : ∀ i ∈ Outline.ofTokens (Scan.tokens text), i.whole = true :=
  fun i hi => Outline.Item.whole_of_faultsIn (h.faults i hi)

theorem mem_program : kinds (Scan.tokens text).list ∈ derived .program := by
  have hwords : words (Outline.marksOf _) = kinds (Scan.tokens text).list :=
    Outline.words_readItems (Scan.tokens text).endLine _ h.whole_items
  exact hwords ▸ Outline.derived_items _ h.faults

theorem ofKinds_eq : Outline.ofKinds (kinds (Scan.tokens text).list) =
    [.function (lineless.signature sig) .none] := by
  rw [← Outline.map_lineless, h.outline]
  rfl

/-- Another text may follow after a blank. -/
theorem kindsOf_append {sep : Cursor} (hsep : Scan.Separator sep) (more : Cursor) :
    Scan.kindsOf (Cursor.ofString text ++ (sep ++ more)) =
      kinds (Scan.tokens text).list ++ Scan.kindsOf more := by
  have hvalid : ∀ t ∈ (Scan.tokens text).list.take (Scan.tokens text).list.length,
      t.kind.isValid = true :=
    fun t ht => valid_of_whole h.whole_items t (List.mem_of_mem_take ht)
  have hcut := Scan.kindsOf_cut hvalid le_rfl h.closed (List.append_nil _).symm hsep more
  have htake : (kinds (Scan.tokens text).list).take (Scan.tokens text).list.length =
      kinds (Scan.tokens text).list := List.take_of_length_le (List.length_map _).le
  rw [Scan.upTo_nil] at hcut
  rw [kinds_tokens] at htake ⊢
  exact hcut.trans (congrArg (· ++ _) htake)

end DeclaresFunction

/-- A declaration of a function that a text defines, to be put somewhere between
the items of the text, or before or after all of them. -/
structure Redeclaration (text : String) where
  /-- So many items come before the declaration. -/
  index : Nat
  /-- The blanks and comments after these items that stay before it. -/
  gap : Cursor
  /-- The rest of the text, which follows it. -/
  after : Cursor
  decl : String
  sig : Outline.Signature
  /-- What is put before the declaration, to keep it apart. -/
  front : Cursor
  /-- What is put after it. -/
  back : Cursor
  place : ((Scan.Place.start text).beyond (leadingTokens text index)).rest = gap ++ after
  trivia : Scan.Trivia gap
  declares : DeclaresFunction decl sig
  defined : sig.head .defined ∈ heads text
  apart : Scan.Separator front ∧ Scan.Separator back

namespace Redeclaration

variable {text : String} (r : Redeclaration text)

/-- The text with the declaration in its place. -/
def result : String :=
  String.ofList (Scan.upTo (Cursor.ofString text) r.after ++
    (r.front ++ (Cursor.ofString r.decl ++ (r.back ++ r.after))))

/-- **The tokens of the declaration stand between those of the items.** -/
theorem kinds_result {p : Program} (hp : parse text = .ok p) :
    kinds (Scan.tokens r.result).list =
      (kinds (Scan.tokens text).list).take (leadingTokens text r.index) ++
        (kinds (Scan.tokens r.decl).list ++
          (kinds (Scan.tokens text).list).drop (leadingTokens text r.index)) := by
  have hn := (kinds_items hp r.index).1
  have hvalid : ∀ t ∈ (Scan.tokens text).list.take (leadingTokens text r.index),
      t.kind.isValid = true := fun t ht => valid_of_parse hp t (List.mem_of_mem_take ht)
  have hafter : Scan.kindsOf r.after =
      (kinds (Scan.tokens text).list).drop (leadingTokens text r.index) := by
    rw [kinds_tokens]
    exact Scan.kindsOf_after hvalid hn r.trivia r.place
  rw [← hafter, ← r.declares.kindsOf_append r.apart.2, kinds_tokens, kinds_tokens, result,
    Cursor.ofString, String.toList_ofList]
  exact Scan.kindsOf_cut hvalid hn r.trivia r.place r.apart.1 _

/-- **The outline of the declaration stands between those of the items.** -/
theorem ofKinds_result {p : Program} (hp : parse text = .ok p) :
    ∃ ks ks', Outline.ofKinds (kinds (Scan.tokens text).list) =
        Outline.ofKinds ks ++ Outline.ofKinds ks' ∧
      Outline.ofKinds (kinds (Scan.tokens r.result).list) =
        Outline.ofKinds ks ++
          .function (lineless.signature r.sig) .none :: Outline.ofKinds ks' := by
  obtain ⟨_, hfront, hback⟩ := kinds_items hp r.index
  have hdecl := r.declares.mem_program
  have hall := Outline.ofKinds_append hfront hback
  rw [List.take_append_drop] at hall
  refine ⟨_, _, hall, ?_⟩
  rw [r.kinds_result hp, Outline.ofKinds_append hfront (Outline.append_mem_program hdecl hback),
    Outline.ofKinds_append hdecl hback, r.declares.ofKinds_eq]
  rfl

/-- **The module stays as it is.** -/
theorem compile_result {out : String} (hout : compile text = .ok out) :
    compile r.result = .ok out := by
  obtain ⟨p, hp⟩ := parse_of_compile_ok hout
  obtain ⟨ks, ks', hkinds, hkinds'⟩ := r.ofKinds_result hp
  obtain ⟨q, hq, hmodule⟩ := compile_eq_ok.1 hout
  have hdefined : (lineless.signature r.sig).head .defined ∈
      Outline.heads (Outline.ofKinds ks ++ Outline.ofKinds ks') := by
    rw [← hkinds, ← Outline.map_lineless, Outline.heads_relabelled fun _ => rfl,
      Outline.head_relabelled fun _ => rfl]
    exact r.defined
  have hwhole : (lineless.signature r.sig).fault = none := by
    rw [Relabelling.signature, r.declares.whole]
    rfl
  rw [hkinds] at hq
  obtain ⟨φ, hname, hline, q', hq', hsame⟩ := Relabelling.program_declared hq hwhole hdefined
  have hitem : φ.item (.function (lineless.signature r.sig) .none) =
      .function (lineless.signature r.sig) .none := by
    have hdecl := Outline.map_ofKinds hname hline (kinds (Scan.tokens r.decl).list)
    rw [r.declares.ofKinds_eq] at hdecl
    exact (List.cons.inj hdecl).1
  rw [Outline.map_ofKinds hname hline, Outline.map_ofKinds hname hline, hitem, ← hkinds'] at hq'
  exact compile_eq_ok.2 ⟨q', hq', hsame ▸ hmodule⟩

end Redeclaration

/-- One declaration more. -/
def Redeclares (text text' : String) : Prop := ∃ r : Redeclaration text, r.result = text'

/-! ## §3. Transparency -/

/-- **Declarations of functions are transparent.**  A text that compiles may
declare the functions it defines, with the same types, between any two items
and any number of times: it compiles to the same module text. -/
theorem declarations_transparent {text text' out : String} (hout : compile text = .ok out)
    (h : Relation.ReflTransGen Redeclares text text') : compile text' = .ok out := by
  induction h with
  | refl => exact hout
  | tail _ hstep ih =>
    obtain ⟨r, rfl⟩ := hstep
    exact r.compile_result ih

/-- A program with two functions. -/
def pairText : String := "int g()\x7b\x7dint f(int a)\x7b\x7d"

/-- The words of the two functions. -/
theorem tokens_pairText : Scan.tokens pairText =
    ⟨[⟨.keyword .kwInt, 1⟩, ⟨.identifier "g", 1⟩, ⟨.punct .lparen, 1⟩, ⟨.punct .rparen, 1⟩,
      ⟨.punct .lbrace, 1⟩, ⟨.punct .rbrace, 1⟩, ⟨.keyword .kwInt, 1⟩, ⟨.identifier "f", 1⟩,
      ⟨.punct .lparen, 1⟩, ⟨.keyword .kwInt, 1⟩, ⟨.identifier "a", 1⟩, ⟨.punct .rparen, 1⟩,
      ⟨.punct .lbrace, 1⟩, ⟨.punct .rbrace, 1⟩], 1⟩ := by
  cbv

/-- A declaration of the second one, with another name for the parameter. -/
def otherHead : String := "int f(int b);"

/-- A head with another name for its parameter. -/
theorem declares_otherHead : DeclaresFunction otherHead ⟨.int, "f", 1, [⟨.int, "b", 1⟩], none⟩ where
  outline := by cbv
  whole := rfl
  closed := by
    have hrest : ((Scan.Place.start otherHead).beyond (Scan.tokens otherHead).list.length).rest =
        [] := by cbv
    rw [hrest]
    exact .nil

theorem separator_newline : Scan.Separator ['\n'] := .mk rfl .nil

/-- The function is declared before all items, -/
def declaredAhead : Redeclaration pairText where
  index := 0
  gap := []
  after := Cursor.ofString pairText
  decl := otherHead
  sig := ⟨.int, "f", 1, [⟨.int, "b", 1⟩], none⟩
  front := ['\n']
  back := ['\n']
  place := rfl
  trivia := .nil
  declares := declares_otherHead
  defined := by
    have hheads : heads pairText = [⟨"g", .int, [], .defined⟩, ⟨"f", .int, [.int], .defined⟩] := by
      rw [heads, tokens_pairText]
      cbv
    rw [hheads]
    decide
  apart := ⟨separator_newline, separator_newline⟩

theorem result_declaredAhead : declaredAhead.result =
    "\nint f(int b);\nint g()\x7b\x7dint f(int a)\x7b\x7d" := by
  cbv

theorem heads_declaredAhead : heads declaredAhead.result =
    [⟨"f", .int, [.int], .declared⟩, ⟨"g", .int, [], .defined⟩,
      ⟨"f", .int, [.int], .defined⟩] := by
  rw [result_declaredAhead]
  cbv

theorem rest_declaredAhead : ((Scan.Place.start declaredAhead.result).beyond
    (leadingTokens declaredAhead.result 3)).rest = [] := by
  rw [result_declaredAhead]
  cbv

/-- and once more after its definition. -/
def declaredBehind : Redeclaration declaredAhead.result where
  index := 3
  gap := []
  after := []
  decl := otherHead
  sig := ⟨.int, "f", 1, [⟨.int, "b", 1⟩], none⟩
  front := ['\n']
  back := ['\n']
  place := rest_declaredAhead
  trivia := .nil
  declares := declares_otherHead
  defined := by
    rw [heads_declaredAhead]
    decide
  apart := ⟨separator_newline, separator_newline⟩

theorem exists_parse_pairText : ∃ p, parse pairText = .ok p := by
  apply exists_parse
  rw [parse, tokens_pairText]
  cbv

/-- The function is declared before all items and after its definition, and the
module stays. -/
theorem declarations_transparent_pair :
    Relation.ReflTransGen Redeclares pairText declaredBehind.result ∧
      ∃ out, compile pairText = .ok out ∧ compile declaredBehind.result = .ok out := by
  have hahead : Redeclares pairText declaredAhead.result := ⟨declaredAhead, rfl⟩
  have hbehind : Redeclares declaredAhead.result declaredBehind.result := ⟨declaredBehind, rfl⟩
  have hsteps : Relation.ReflTransGen Redeclares pairText declaredBehind.result :=
    (Relation.ReflTransGen.single hahead).tail hbehind
  obtain ⟨p, hp⟩ := exists_parse_pairText
  have hout := compile_of_parse_ok hp
  exact ⟨hsteps, _, hout, declarations_transparent hout hsteps⟩

end MiniC
