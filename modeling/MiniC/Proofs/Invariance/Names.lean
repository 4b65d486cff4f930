/-
  MiniC.Proofs.Invariance.Names

  **The names of variables do not matter.**

  Other names in a text, no two of them alike, are other names in its tokens,
  and a relabelling of what is made of these.  So the text with other names
  compiles as the text does.  Names of functions stand in the module, so they
  are to stay; a variable is not given one of them, as no two names fall
  together.
-/
import Mathlib.SetTheory.Cardinal.Arithmetic
import MiniC.Proofs.Checking.Functions
import MiniC.Proofs.Checking.Malformed
import MiniC.Proofs.Relabelling.Modules
import MiniC.Proofs.Relabelling.Outlines
import MiniC.Proofs.Scanning.Renaming

namespace MiniC

variable {text : String}

/-! ## §1. A renaming as a relabelling -/

/-- Finitely many names that stay apart can be given to all texts as if all
stayed apart. -/
theorem exists_embedding {ρ : String → String} {xs : List String}
    (h : ∀ x ∈ xs, ∀ y ∈ xs, ρ x = ρ y → x = y) :
    ∃ g : String ↪ String, ∀ x ∈ xs, g x = ρ x := by
  have hinjective : Function.Injective fun x : {x | x ∈ xs} => ρ x :=
    fun x y hxy => Subtype.ext (h x x.2 y y.2 hxy)
  have hfinite : Cardinal.mk {x | x ∈ xs} < Cardinal.mk String :=
    (Cardinal.lt_aleph0_iff_set_finite.2 xs.finite_toSet).trans_le (Cardinal.aleph0_le_mk String)
  obtain ⟨g, hg⟩ := Cardinal.extend_function_of_lt ⟨_, hinjective⟩ hfinite ⟨.refl _⟩
  exact ⟨g.toEmbedding, fun x hx => hg ⟨x, hx⟩⟩

theorem mem_identifiers {ts : List Token} {x : String} :
    x ∈ identifiers ts ↔ .identifier x ∈ kinds ts := by
  have hname (k : Kind) : k.name? = some x ↔ k = .identifier x := by
    cases k <;> simp [Kind.name?]
  simp only [identifiers, kinds, List.mem_filterMap, List.mem_map, hname]

/-- The names of functions are among the names of the text. -/
theorem mem_identifiers_of_heads {h : Head} (hh : h ∈ heads text) :
    h.name ∈ identifiers (Scan.tokens text).list := by
  obtain ⟨i, hi, hhead⟩ := List.mem_filterMap.1 hh
  have hmark : Kind.identifier h.name ∈ words i.marks := by
    cases i with
    | imported sig fault =>
      cases hhead
      simp [Outline.Item.marks, Outline.Signature.marks, Outline.Signature.head]
    | function sig body =>
      have hname : h.name = sig.name := by
        cases body <;> cases hhead <;> rfl
      simp [Outline.Item.marks, Outline.Signature.marks, hname]
    | global d => cases hhead
    | broken f => cases hhead
  rw [mem_identifiers]
  refine Outline.names_readItems (Scan.tokens text).endLine _ ?_
  obtain ⟨m, hm, hword⟩ := List.mem_filterMap.1 hmark
  exact List.mem_filterMap.2 ⟨m, List.mem_flatMap.2 ⟨i, hi, hm⟩, hword⟩

/-- If the names of functions in a text stay, so do those in its program. -/
theorem keepsFunctions_of_heads {φ : Relabelling} {p : Program}
    (hfixed : ∀ h ∈ heads text, φ.name h.name = h.name) (hp : parse text = .ok p) :
    φ.KeepsFunctions p := by
  have hclosed := Program.closed_of_parse hp
  have htable : ∀ {f : FuncId} {sym : FuncSymbol}, p.symbols.func? f = some sym →
      φ.name sym.name = sym.name := by
    intro f sym hf
    obtain ⟨h, hh, hname⟩ := hclosed.mem_heads hf
    rw [← hname]
    exact hfixed h hh
  refine ⟨htable, fun {f} hf => ?_⟩
  obtain ⟨sym, hsym, hname, _⟩ := hclosed.agrees f (List.mem_filterMap.2 ⟨_, hf, rfl⟩)
  rw [hname]
  exact htable hsym

/-! ## §2. Compiling -/

/-- A text with other names, no two of which fall together. -/
structure Renaming (text : String) (ρ : String → String) : Prop where
  valid : ∀ t ∈ (Scan.tokens text).list, t.kind.isValid = true
  /-- Names become names, and not reserved words. -/
  names : ∀ x ∈ identifiers (Scan.tokens text).list, Scan.isName (ρ x) = true
  apart : ∀ x ∈ identifiers (Scan.tokens text).list,
    ∀ y ∈ identifiers (Scan.tokens text).list, ρ x = ρ y → x = y
  /-- Functions keep their names. -/
  functions : ∀ h ∈ heads text, ρ h.name = h.name

namespace Renaming

variable {text : String} {ρ : String → String}

/-- **The tokens of the text with other names are relabelled ones.** -/
theorem tokens_renamed (h : Renaming text ρ) {g : String ↪ String}
    (hg : ∀ x ∈ identifiers (Scan.tokens text).list, g x = ρ x) :
    Scan.tokens (Scan.renamed ρ text) =
      ⟨(Scan.tokens text).list.map (Relabelling.mk g id (.refl _)).token,
        (Scan.tokens text).endLine⟩ := by
  have hrenames : Scan.Renames ρ (Scan.tokens text).list := by
    refine fun t ht => ⟨h.valid t ht, fun x hx => h.names x ?_⟩
    rw [mem_identifiers, ← hx]
    exact List.mem_map_of_mem ht
  have htoken : ∀ t ∈ (Scan.tokens text).list,
      (⟨t.kind.renamed ρ, t.line⟩ : Token) = (Relabelling.mk g id (.refl _)).token t := by
    rintro ⟨k, line⟩ ht
    cases k with
    | identifier x =>
      have hx : x ∈ identifiers (Scan.tokens text).list :=
        mem_identifiers.2 (List.mem_map_of_mem ht)
      show (⟨.identifier (ρ x), line⟩ : Token) = ⟨.identifier (g x), line⟩
      rw [hg x hx]
    | _ => rfl
  have hstart : Scan.Place.start (Scan.renamed ρ text) =
      ⟨Scan.renamedFrom ρ (.start text), 1⟩ := by
    rw [Scan.Place.start, Scan.renamed, Text.Cursor.ofString, String.toList_ofList]
  rw [← List.map_congr_left htoken, Scan.tokens, hstart]
  exact Scan.tokensFrom_renamedFrom hrenames

/-- **Checking follows the renaming**, and the module is the same. -/
theorem parse_follows (h : Renaming text ρ) :
    ∃ φ : Relabelling, (∀ line, φ.line line = line) ∧
      φ.Follows True (fun p p' => Lower.program p' = Lower.program p) (parse text)
        (parse (Scan.renamed ρ text)) := by
  obtain ⟨g, hg⟩ := exists_embedding h.apart
  let φ : Relabelling := ⟨g, id, .refl _⟩
  have houtline : Outline.ofTokens (Scan.tokens (Scan.renamed ρ text)) =
      (Outline.ofTokens (Scan.tokens text)).map φ.item := by
    rw [← φ.ofTokens_relabelled, h.tokens_renamed hg]
    rfl
  refine ⟨φ, fun _ => rfl, ?_⟩
  unfold parse
  rw [houtline]
  refine Relabelling.module_follows (fun _ => rfl) _ fun p hp => keepsFunctions_of_heads ?_ hp
  intro head hhead
  show g head.name = head.name
  rw [hg _ (mem_identifiers_of_heads hhead), h.functions head hhead]

end Renaming

/-- **The names of variables do not matter.**  With other names that stay
apart, and those of functions kept, a text that compiles compiles to the same
module text, and one that does not fails with the same category on the same
line. -/
theorem names_irrelevant {text : String} {ρ : String → String} (h : Renaming text ρ) :
    (∀ out, compile text = .ok out → compile (Scan.renamed ρ text) = .ok out) ∧
      ∀ f, compile text = .error f → ∃ f', compile (Scan.renamed ρ text) = .error f' ∧
        f'.cause.category = f.cause.category ∧ f'.line = f.line := by
  obtain ⟨φ, hline, hfollows⟩ := h.parse_follows
  constructor
  · intro out hout
    obtain ⟨p, hp⟩ := parse_of_compile_ok hout
    obtain ⟨p', hp', hmodule⟩ := hfollows.ok hp
    rw [← hout, compile_of_parse_ok hp, compile_of_parse_ok hp', hmodule]
  · intro f hf
    have hfault := hfollows.error (parse_of_compile_error hf) trivial
    exact ⟨φ.fault f, compile_of_parse_error hfault, φ.category_cause f.cause, hline f.line⟩

/-- Two names change places. -/
def swapNames (x : String) : String :=
  if x = "a" then "b" else if x = "b" then "a" else x

/-- A program in which the places of the names matter. -/
def differenceText : String := "int f(int a, int b) \x7b return a - b; \x7d"

/-- The words of the difference. -/
theorem tokens_differenceText : Scan.tokens differenceText =
    ⟨[⟨.keyword .kwInt, 1⟩, ⟨.identifier "f", 1⟩, ⟨.punct .lparen, 1⟩, ⟨.keyword .kwInt, 1⟩,
      ⟨.identifier "a", 1⟩, ⟨.punct .comma, 1⟩, ⟨.keyword .kwInt, 1⟩, ⟨.identifier "b", 1⟩,
      ⟨.punct .rparen, 1⟩, ⟨.punct .lbrace, 1⟩, ⟨.keyword .kwReturn, 1⟩, ⟨.identifier "a", 1⟩,
      ⟨.punct .minus, 1⟩, ⟨.identifier "b", 1⟩, ⟨.punct .semicolon, 1⟩, ⟨.punct .rbrace, 1⟩],
      1⟩ := by
  cbv

theorem renamed_differenceText :
    Scan.renamed swapNames differenceText = "int f(int b, int a) \x7b return b - a; \x7d" := by
  cbv

theorem exists_parse_differenceText : ∃ p, parse differenceText = .ok p := by
  apply exists_parse
  rw [parse, tokens_differenceText]
  cbv

/-- A program with a name that is not declared. -/
def undeclaredText : String := "int f(int a)\n\x7b return b; \x7d"

theorem tokens_undeclaredText : Scan.tokens undeclaredText =
    ⟨[⟨.keyword .kwInt, 1⟩, ⟨.identifier "f", 1⟩, ⟨.punct .lparen, 1⟩, ⟨.keyword .kwInt, 1⟩,
      ⟨.identifier "a", 1⟩, ⟨.punct .rparen, 1⟩, ⟨.punct .lbrace, 2⟩, ⟨.keyword .kwReturn, 2⟩,
      ⟨.identifier "b", 2⟩, ⟨.punct .semicolon, 2⟩, ⟨.punct .rbrace, 2⟩], 2⟩ := by
  cbv

theorem compile_undeclaredText : compile undeclaredText = .error ⟨.unknown "b", 2⟩ := by
  refine compile_of_parse_error ?_
  rw [parse, tokens_undeclaredText]
  cbv

/-- Texts with these names only. -/
theorem renaming_swapNames (hvalid : ((Scan.tokens text).list.all fun t => t.kind.isValid) = true)
    (hnames : ((identifiers (Scan.tokens text).list).all fun x => x ∈ ["f", "a", "b"]) = true)
    (hheads : ((heads text).all fun h => h.name = "f") = true) : Renaming text swapNames := by
  have hmem : ∀ x ∈ identifiers (Scan.tokens text).list, x ∈ ["f", "a", "b"] :=
    fun x hx => of_decide_eq_true (List.all_eq_true.1 hnames x hx)
  have hname : ∀ x ∈ ["f", "a", "b"], Scan.isName (swapNames x) = true := by decide
  have hapart : ∀ x ∈ ["f", "a", "b"], ∀ y ∈ ["f", "a", "b"],
      swapNames x = swapNames y → x = y := by decide
  refine ⟨List.all_eq_true.1 hvalid, fun x hx => hname x (hmem x hx),
    fun x hx y hy => hapart x (hmem x hx) y (hmem y hy), fun h hh => ?_⟩
  rw [of_decide_eq_true (List.all_eq_true.1 hheads h hh)]
  rfl

/-- Its two names may be swapped. -/
theorem renaming_differenceText : Renaming differenceText swapNames := by
  apply renaming_swapNames
  · rw [tokens_differenceText]
    rfl
  · rw [tokens_differenceText]
    decide
  · rw [heads, tokens_differenceText]
    cbv

/-- The names of the text that is refused may be swapped. -/
theorem renaming_undeclaredText : Renaming undeclaredText swapNames := by
  apply renaming_swapNames
  · rw [tokens_undeclaredText]
    rfl
  · rw [tokens_undeclaredText]
    decide
  · rw [heads, tokens_undeclaredText]
    cbv

/-- The difference is taken in the same order, and the name that is not
declared is still not declared. -/
theorem names_irrelevant_swap :
    (Scan.renamed swapNames differenceText = "int f(int b, int a) \x7b return b - a; \x7d" ∧
      ∃ out, compile differenceText = .ok out ∧
        compile (Scan.renamed swapNames differenceText) = .ok out) ∧
    compile undeclaredText = .error ⟨.unknown "b", 2⟩ ∧
      ∃ f', compile (Scan.renamed swapNames undeclaredText) = .error f' ∧
        f'.cause.category = .naming ∧ f'.line = 2 := by
  obtain ⟨p, hp⟩ := exists_parse_differenceText
  have hok := compile_of_parse_ok hp
  exact ⟨⟨renamed_differenceText, _, hok, (names_irrelevant renaming_differenceText).1 _ hok⟩,
    compile_undeclaredText,
    (names_irrelevant renaming_undeclaredText).2 _ compile_undeclaredText⟩

end MiniC
