/-
  MiniC.Proofs.Reparsing.Types

  **A type in words is unambiguous, and reads like its declaration.**

  Stars and lengths stand after the name of the basic type in any order, so the
  words are read from left to right: the lengths since the last star are those
  of an array of arrays, outermost first, and a star points to what was read so
  far (`Spoken`).  Reading a type in words gives that type back
  (`read?_displayBefore`), whence no two types have the same words.

  A declaration is read as its type, its name and its lengths, and the checker
  builds the array from the last length to the first.  In words the lengths
  stand again as in the declaration (`display_of_declaration`).
-/
import MiniC.Proofs.Reparsing.RoundTrip

namespace MiniC

namespace Ty

open Text (digitValue digitsOf digitsValue)

/-! ## §1. Lengths in words -/

/-- Lengths in brackets, one after the other. -/
def brackets (lengths : List Nat) : String :=
  String.join (lengths.map fun n => "[" ++ toString n ++ "]")

theorem brackets_cons (n : Nat) (ns : List Nat) :
    brackets (n :: ns) = "[" ++ Text.unsigned n ++ "]" ++ brackets ns := by
  rw [brackets, List.map_cons, String.join_cons]
  rfl

/-- One more length is one more bracket. -/
theorem brackets_concat (ns : List Nat) (n : Nat) :
    brackets (ns ++ [n]) = brackets ns ++ "[" ++ Text.unsigned n ++ "]" := by
  induction ns with
  | nil =>
    show brackets [n] = "" ++ "[" ++ Text.unsigned n ++ "]"
    rw [brackets_cons, String.empty_append]
    exact String.append_empty
  | cons m ns ih =>
    rw [List.cons_append, brackets_cons, ih, brackets_cons]
    simp only [String.append_assoc]

theorem arrayOf_concat (element : Ty) (ns : List Nat) (n : Nat) :
    arrayOf element (ns ++ [n]) = arrayOf (.array element n) ns := by
  simp [arrayOf]

/-- The lengths of an array come after those of the arrays around it. -/
theorem displayBefore_arrayOf (element : Ty) (ns : List Nat) (around : String) :
    (arrayOf element ns).displayBefore around = element.displayBefore (around ++ brackets ns) := by
  induction ns generalizing around with
  | nil => simp [arrayOf, brackets]
  | cons n ns ih =>
    show (arrayOf element ns).displayBefore (around ++ "[" ++ Text.unsigned n ++ "]") = _
    rw [ih, brackets_cons]
    simp only [String.append_assoc]

/-- **An array reads like its declaration**: what it is made of, and its lengths
from the first to the last. -/
theorem display_arrayOf {element : Ty} (h : element.isArray = false) (ns : List Nat) :
    (arrayOf element ns).display = element.display ++ brackets ns := by
  rw [display, displayBefore_arrayOf]
  cases element with
  | array base n => cases h
  | _ => simp [display, displayBefore]

/-! ## §2. Reading a type in words -/

/-- What was read of a type in words. -/
structure Spoken where
  /-- What the last star, or the name of the basic type, made. -/
  element : Ty
  /-- The lengths since then. -/
  lengths : List Nat := []
  /-- The number that the digits since the last bracket make. -/
  number : Nat := 0
  deriving DecidableEq, Repr

namespace Spoken

/-- The type that was read. -/
def ty (r : Spoken) : Ty := arrayOf r.element r.lengths

/-- Reads one more character. -/
def take (r : Spoken) (c : Char) : Spoken :=
  if c = '*' then { element := .pointer r.ty }
  else if c = '[' then { r with number := 0 }
  else if c = ']' then { r with lengths := r.lengths ++ [r.number], number := 0 }
  else { r with number := 10 * r.number + digitValue c }

/-- Digits make a number. -/
theorem foldl_digits {ds : List Char} (h : ∀ c ∈ ds, Text.isDigit c = true) (r : Spoken) :
    ds.foldl take r =
      { r with number := ds.foldl (fun n c => 10 * n + digitValue c) r.number } := by
  induction ds generalizing r with
  | nil => rfl
  | cons c ds ih =>
    obtain ⟨hc, hds⟩ := List.forall_mem_cons.1 h
    have hstar : c ≠ '*' := by rintro rfl; cases hc
    have hopen : c ≠ '[' := by rintro rfl; cases hc
    have hclose : c ≠ ']' := by rintro rfl; cases hc
    rw [List.foldl_cons, take, if_neg hstar, if_neg hopen, if_neg hclose, ih hds]
    rfl

/-- Brackets add their lengths. -/
theorem foldl_brackets (ns : List Nat) {r : Spoken} (h : r.number = 0) :
    (brackets ns).toList.foldl take r = { r with lengths := r.lengths ++ ns } := by
  induction ns generalizing r with
  | nil => simp [brackets]
  | cons n ns ih =>
    have hdigits := foldl_digits (fun c hc => Text.isDigit_of_mem_digitsOf (n := n) hc)
      { r with number := 0 }
    have hnumber : (digitsOf n).foldl (fun n c => 10 * n + digitValue c) 0 = n :=
      Text.digitsValue_digitsOf n
    -- one pair of brackets, from a reading that has no digits pending to the next such one
    have hone : ("[" ++ Text.unsigned n ++ "]").toList.foldl take r =
        { r with lengths := r.lengths ++ [n], number := 0 } := by
      have hunsigned : (Text.unsigned n).toList = digitsOf n := String.toList_ofList
      rw [String.toList_append, String.toList_append, List.foldl_append, List.foldl_append,
        hunsigned]
      show take ((digitsOf n).foldl take { r with number := 0 }) ']' = _
      rw [hdigits]
      show { r with lengths := r.lengths ++ [_], number := 0 } = _
      rw [hnumber]
    rw [brackets_cons, String.toList_append, List.foldl_append, hone, ih rfl]
    simp [h]

end Spoken

/-- What the words of a type say, after the name of the basic type. -/
def spoken? : List Char → Option Spoken
  | 'i' :: 'n' :: 't' :: cs => some (cs.foldl Spoken.take { element := .int })
  | 'f' :: 'l' :: 'o' :: 'a' :: 't' :: cs => some (cs.foldl Spoken.take { element := .float })
  | 'v' :: 'o' :: 'i' :: 'd' :: cs => some (cs.foldl Spoken.take { element := .void })
  | _ => none

/-- The type that is so in words. -/
def read? (words : String) : Option Ty := (spoken? words.toList).map Spoken.ty

/-- What is spoken goes on with what follows. -/
theorem spoken?_append {cs : List Char} {r : Spoken} (h : spoken? cs = some r)
    (more : List Char) : spoken? (cs ++ more) = some (more.foldl Spoken.take r) := by
  revert h
  fun_cases spoken? cs with
  | case1 cs =>
    intro h
    cases h
    simp [spoken?]
  | case2 cs =>
    intro h
    cases h
    simp [spoken?]
  | case3 cs =>
    intro h
    cases h
    simp [spoken?]
  | case4 => exact fun h => absurd h.symm (Option.some_ne_none _)

theorem spoken?_brackets {word : String} {element : Ty}
    (h : spoken? word.toList = some { element := element }) (ns : List Nat) :
    read? (word ++ brackets ns) = some (arrayOf element ns) := by
  rw [read?, String.toList_append, spoken?_append h, Spoken.foldl_brackets ns rfl]
  simp [Spoken.ty]

/-- **A type in words is read back as that type.** -/
theorem read?_displayBefore (t : Ty) (ns : List Nat) :
    read? (t.displayBefore (brackets ns)) = some (arrayOf t ns) := by
  induction t generalizing ns with
  | int => exact spoken?_brackets rfl ns
  | float => exact spoken?_brackets rfl ns
  | void => exact spoken?_brackets rfl ns
  | pointer base ih =>
    obtain ⟨r, hr, hty⟩ := Option.map_eq_some_iff.1 (ih [])
    have hstar : spoken? (base.display ++ "*").toList = some { element := .pointer base } := by
      have hr : spoken? base.display.toList = some r := hr
      -- whatever lengths were read before the star are those of what it points to
      rw [String.toList_append, spoken?_append hr]
      show some (Spoken.mk (.pointer r.ty) [] 0) = _
      rw [hty]
      rfl
    exact spoken?_brackets hstar ns
  | array base n ih =>
    rw [displayBefore, ← brackets_concat, ih, arrayOf_concat]

theorem read?_display (t : Ty) : read? t.display = some t := read?_displayBefore t []

/-- **No two types are the same in words.** -/
theorem display_inj {t u : Ty} : t.display = u.display ↔ t = u := by
  refine ⟨fun h => ?_, fun h => h ▸ rfl⟩
  have hread := read?_display t
  rw [h, read?_display] at hread
  exact (Option.some.inj hread).symm

example : read? "int[3]*[2][5]" = some (.array (.array (.pointer (.array .int 3)) 5) 2) := by
  decide +kernel

end Ty

/-! ## §3. Reading a declaration -/

namespace Outline

/-- The words of a length that is a constant. -/
def bracketed (n : Int32) : List Kind := [.punct .lbracket, .integer n, .punct .rbracket]

/-- The words of a variable with constant lengths. -/
def declarationWords (base : Ty) (x : String) (lengths : List Int32) : List Kind :=
  base.words ++ Kind.identifier x :: (lengths.flatMap bracketed ++ [Kind.punct .semicolon])

variable {last : Nat} {ts : List Token} {after : List Kind}

/-- The words of a type are read as that type. -/
theorem readTy_words (last : Nat) {ty : Ty} (hty : ty.isNamed = true)
    (h : kinds ts = ty.words ++ after) (hafter : NotNext (.punct .star) after) :
    ∃ rest, readTy last ts = .ok (ty, rest) ∧ kinds rest.1 = after := by
  obtain ⟨ty', rest, hread, hrest⟩ := readTy_of_kinds last ty.words_mem_typeWords h hafter
  have hkinds := kinds_of_readTy hread
  rw [h, hrest] at hkinds
  have hwords : ty.words = ty'.words := List.append_cancel_right hkinds
  rw [← Ty.eq_of_words hty (isNamed_of_readTy hread) hwords] at hread
  exact ⟨rest, hread, hrest⟩

/-- The run is a whole number and nothing else. -/
def IsInt (n : Int32) (r : Run) : Prop := ∃ line, r = .last (.int n line)

/-- Lengths that are constants are read one by one. -/
theorem readLengths_words (last : Nat) {lengths : List Int32}
    (h : kinds ts = lengths.flatMap bracketed ++ after)
    (hafter : NotNext (.punct .lbracket) after) :
    ∃ es rest, readLengths last ts = (es, some rest) ∧ kinds rest.1 = after ∧
      List.Forall₂ IsInt lengths es := by
  induction lengths generalizing ts with
  | nil =>
    refine ⟨[], .all ts, readLengths_none ?_, h, .nil⟩
    rintro line rest rfl
    have h : Kind.punct .lbracket :: kinds rest = after := h
    rw [← h] at hafter
    exact hafter rfl
  | cons n lengths ih =>
    obtain ⟨line, ts₁, rfl, h₁⟩ := kinds_eq_cons h
    obtain ⟨line', ts₂, rfl, h₂⟩ := kinds_eq_cons h₁
    obtain ⟨line'', ts₃, rfl, h₃⟩ := kinds_eq_cons h₂
    obtain ⟨es, rest, hes, hrest, hints⟩ := ih h₃
    have hrun : RunRead last .bracket false (⟨.integer n, line'⟩ :: ⟨.punct .rbracket, line''⟩ ::
        ts₃) (.last (.int n line')) (some (⟨.punct .rbracket, line''⟩, ts₃)) :=
      .last Bool.false_ne_true (.int rfl) rfl
    obtain ⟨hlt, hread⟩ := hrun.eq_some
    exact ⟨_ :: es, _, readLengths_more hread hes, hrest, .cons ⟨line', rfl⟩ hints⟩

/-- **A declaration is read as its type, its name and its lengths.** -/
theorem readDeclaration_words (last : Nat) {base : Ty} (hbase : base.isNamed = true) {x : String}
    {lengths : List Int32} (h : kinds ts = declarationWords base x lengths ++ after) :
    ∃ line es rest, readDeclaration last ts = .ok (⟨base, x, line, es, .none⟩, some rest) ∧
      kinds rest.1 = after ∧ List.Forall₂ IsInt lengths es := by
  have h : kinds ts = base.words ++ Kind.identifier x ::
      (lengths.flatMap bracketed ++ Kind.punct .semicolon :: after) := by
    simpa [declarationWords] using h
  obtain ⟨afterTy, hty, hafterTy⟩ := readTy_words last hbase h (by simp [NotNext])
  obtain ⟨line, afterName, hname, hafterName⟩ := readName_of_kinds last hafterTy
  obtain ⟨es, afterLengths, hes, hafterLengths, hints⟩ :=
    readLengths_words last hafterName (by simp [NotNext])
  obtain ⟨rest, hsemi, hrest⟩ := expect_of_kinds last hafterLengths
  have hinit : readInitial last afterLengths.1 = (.none, some rest) := by
    refine readInitial_none ?_ hsemi
    intro line' rest' heq
    rw [heq] at hafterLengths
    cases hafterLengths
  refine ⟨line, es, afterTy.within (afterName.within (afterLengths.within rest)), ?_, hrest, hints⟩
  rw [readDeclaration, hty]
  dsimp only [bind, Except.bind]
  rw [hname]
  dsimp only
  rw [hes]
  dsimp only
  rw [hinit]
  rfl

/-- The type before the name of a variable has a name. -/
theorem isNamed_of_readDeclaration {d : Declaration} {rest : Option (Left ts.length)}
    (h : readDeclaration last ts = .ok (d, rest)) : d.base.isNamed = true := by
  obtain ⟨⟨base, afterTy⟩, hty, h⟩ := bind_eq_ok.1 h
  obtain ⟨⟨⟨name, line⟩, afterName⟩, _, h⟩ := bind_eq_ok.1 h
  have hbase := isNamed_of_readTy hty
  dsimp only at h
  split at h
  · cases h
    exact hbase
  · cases h
    exact hbase

end Outline

/-! ## §4. The declared type -/

namespace Check

open Outline (IsInt)

variable {st : State}

/-- A length that is a constant has to be positive. -/
theorem lengths_cons_int (env : Env) (n : Int32) (line : Nat) (es : List Outline.Run)
    {ls : List Nat} : lengths env (.last (.int n line) :: es) = .ok ls ↔
      0 < n.toInt ∧ ∃ ls', lengths env es = .ok ls' ∧ ls = n.toInt.toNat :: ls' := by
  have hrun : run env (.last (.int n line)) = .ok (.literal (.int n) .int line) :=
    Precedence.resolve_operand _ line
  rw [lengths, hrun]
  show (lengthOf (.literal (.int n) .int line) >>= fun m =>
    lengths env es >>= fun ls' => Except.ok (m :: ls')) = .ok ls ↔ _
  unfold lengthOf
  by_cases hn : 0 < n.toInt
  · simp only [hn, if_true, true_and, bind_eq_ok, Except.ok.injEq, exists_eq_left']
    simp only [eq_comm]
  · simp only [hn, if_false, false_and, iff_false]
    intro h
    cases h

/-- Constant lengths are what they are, if they are positive. -/
theorem lengths_ints (env : Env) {ns : List Int32} {es : List Outline.Run}
    (h : List.Forall₂ IsInt ns es) {ls : List Nat} :
    lengths env es = .ok ls ↔ (∀ n ∈ ns, 0 < n.toInt) ∧ ls = ns.map (·.toInt.toNat) := by
  induction h generalizing ls with
  | nil => simp [lengths, eq_comm]
  | @cons n e ns es he _ ih =>
    obtain ⟨line, rfl⟩ := he
    rw [lengths_cons_int, List.forall_mem_cons, List.map_cons, and_assoc]
    refine and_congr_right fun _ => ?_
    simp only [ih]
    constructor
    · rintro ⟨ls', ⟨hpos, rfl⟩, rfl⟩
      exact ⟨hpos, rfl⟩
    · rintro ⟨hpos, rfl⟩
      exact ⟨_, ⟨hpos, rfl⟩, rfl⟩

/-- A variable can be declared if the innermost frame has no such name. -/
theorem declare_ok_iff {sym : VarSymbol} :
    (∃ found, st.declare sym = .ok found) ↔ st.scope.top.lookup sym.name = none := by
  have hscope : st.scope = (st.enter sym).2.scope := rfl
  rw [hscope, ← Scope.exists_add_iff (b := .var (st.enter sym).1)]
  constructor
  · rintro ⟨⟨v, st'⟩, h⟩
    obtain ⟨hv, _, hadd, _⟩ := declare_eq_ok h
    rw [hv] at hadd
    exact ⟨st'.scope, hadd⟩
  · rintro ⟨scope, hadd⟩
    have hbind : (st.enter sym).2.bind sym.name (.var (st.enter sym).1) sym.line =
        .ok { (st.enter sym).2 with scope := scope } := by
      unfold State.bind
      rw [hadd]
    exact ⟨_, bind_eq_ok.2 ⟨_, hbind, rfl⟩⟩

/-- A variable with constant lengths can be declared if it has a value, the
lengths are positive and the innermost frame has no such name. -/
theorem declaration_ok_iff {storage : Storage} {base : Ty} {x : String} {line : Nat}
    {ns : List Int32} {es : List Outline.Run} (h : List.Forall₂ IsInt ns es) :
    (∃ found, declaration st storage ⟨base, x, line, es, .none⟩ = .ok found) ↔
      base ≠ .void ∧ (∀ n ∈ ns, 0 < n.toInt) ∧ st.scope.top.lookup x = none := by
  unfold declaration
  by_cases hvoid : base = .void
  · refine iff_of_false ?_ fun hok => hok.1 hvoid
    rintro ⟨found, hfound⟩
    rw [if_pos hvoid] at hfound
    cases hfound
  · rw [if_neg hvoid]
    constructor
    · rintro ⟨found, hfound⟩
      obtain ⟨ls, hls, hfound⟩ := bind_eq_ok.1 hfound
      obtain ⟨init, _, hfound⟩ := bind_eq_ok.1 hfound
      obtain ⟨declared, hdeclared, _⟩ := bind_eq_ok.1 hfound
      exact ⟨hvoid, ((lengths_ints st.toEnv h).1 hls).1, declare_ok_iff.1 ⟨declared, hdeclared⟩⟩
    · rintro ⟨_, hpos, hfree⟩
      have hls := (lengths_ints st.toEnv h).2 ⟨hpos, rfl⟩
      have hdeclare : ∃ found, st.declare
          ⟨x, .arrayOf base (ns.map (·.toInt.toNat)), storage, line⟩ = .ok found :=
        declare_ok_iff.2 hfree
      obtain ⟨declared, hdeclared⟩ := hdeclare
      -- without an initial value there is nothing else that can fail
      exact ⟨_, bind_eq_ok.2 ⟨_, hls, bind_eq_ok.2 ⟨none, rfl,
        bind_eq_ok.2 ⟨declared, hdeclared, rfl⟩⟩⟩⟩

/-- **A declared variable has the type of its declaration**, which in words is
the type before the name and then the lengths, as they stand. -/
theorem display_of_declaration {st' : State} {storage : Storage} {d : Outline.Declaration}
    {v : VarId} {init : Option Expr} (hbase : d.base.isNamed = true)
    (h : declaration st storage d = .ok ((v, init), st')) :
    ∃ ls sym, lengths st.toEnv d.lengths = .ok ls ∧ st'.symbols.var? v = some sym ∧
      sym.name = d.name ∧ sym.ty.display = d.base.display ++ Ty.brackets ls := by
  unfold declaration at h
  split at h
  · cases h
  · obtain ⟨ls, hls, h⟩ := bind_eq_ok.1 h
    obtain ⟨init', _, h⟩ := bind_eq_ok.1 h
    obtain ⟨⟨v', st''⟩, hdeclare, h⟩ := bind_eq_ok.1 h
    cases h
    exact ⟨ls, _, hls, var?_of_declare hdeclare, rfl,
      Ty.display_arrayOf (Ty.isArray_of_isNamed hbase) ls⟩

/-- **A type in words is unambiguous, and reads like its declaration.**  Types
with the same words are the same.  An array of something else in words is that
and then the lengths from the outermost on.  So is the type of any variable
that is declared: the type before the name and then the lengths as they stand.
A declaration with constant lengths is read as such, and is accepted if it has
a value, its lengths are positive and its name is free. -/
theorem display_unambiguous :
    (∀ t u : Ty, t.display = u.display ↔ t = u) ∧
    (∀ base : Ty, base.isArray = false → ∀ ls : List Nat,
      (Ty.arrayOf base ls).display = base.display ++ Ty.brackets ls) ∧
    (∀ last ts d rest st storage v init st', Outline.readDeclaration last ts = .ok (d, rest) →
      declaration st storage d = .ok ((v, init), st') →
      ∃ ls sym, lengths st.toEnv d.lengths = .ok ls ∧ st'.symbols.var? v = some sym ∧
        sym.name = d.name ∧ sym.ty.display = d.base.display ++ Ty.brackets ls) ∧
    (∀ (base : Ty) x ns last ts after, base.isNamed = true →
      kinds ts = Outline.declarationWords base x ns ++ after →
      ∃ d rest, Outline.readDeclaration last ts = .ok (d, some rest) ∧ kinds rest.1 = after ∧
        ∀ st storage,
          ((∃ found, declaration st storage d = .ok found) ↔
            base ≠ .void ∧ (∀ n ∈ ns, 0 < n.toInt) ∧ st.scope.top.lookup x = none) ∧
          ∀ v init st', declaration st storage d = .ok ((v, init), st') →
            ∃ sym, st'.symbols.var? v = some sym ∧ sym.name = x ∧
              sym.ty.display = base.display ++ Ty.brackets (ns.map (·.toInt.toNat))) := by
  refine ⟨fun _ _ => Ty.display_inj, fun _ => Ty.display_arrayOf, ?_, ?_⟩
  · intro last ts d rest st storage v init st' hread hdeclared
    exact display_of_declaration (Outline.isNamed_of_readDeclaration hread) hdeclared
  · intro base x ns last ts after hbase hts
    obtain ⟨line, es, rest, hread, hrest, hints⟩ := Outline.readDeclaration_words last hbase hts
    refine ⟨_, rest, hread, hrest, fun st storage => ⟨declaration_ok_iff hints, ?_⟩⟩
    intro v init st' hdeclared
    obtain ⟨ls, sym, hls, hsym, hname, hdisplay⟩ := display_of_declaration hbase hdeclared
    rw [((lengths_ints st.toEnv hints).1 hls).2] at hdisplay
    exact ⟨sym, hsym, hname, hdisplay⟩

/-- The declaration of a grid of pointers. -/
def gridWords : List Token :=
  (Outline.declarationWords (.pointer .int) "grid" [2, 5]).map (⟨·, 1⟩)

/-- A grid of pointers is declared, and in words its lengths are as they stand. -/
theorem display_unambiguous_grid :
    ∃ d rest v init st' sym,
      Outline.readDeclaration 1 gridWords = .ok (d, some rest) ∧
      declaration {} .globalVar d = .ok ((v, init), st') ∧ st'.symbols.var? v = some sym ∧
      sym.ty.display = "int*[2][5]" ∧ sym.ty = .array (.array (.pointer .int) 5) 2 := by
  have hread := display_unambiguous.2.2.2 (.pointer .int) "grid" [2, 5] 1 gridWords [] rfl rfl
  obtain ⟨d, rest, hd, _, hdeclare⟩ := hread
  obtain ⟨hok, hdisplay⟩ := hdeclare {} .globalVar
  have hpos : ∀ n ∈ [(2 : Int32), 5], 0 < n.toInt := by
    intro n hn
    rcases List.mem_pair.1 hn with rfl | rfl <;> decide
  obtain ⟨⟨⟨v, init⟩, st'⟩, hfound⟩ := hok.2 ⟨by decide, hpos, rfl⟩
  obtain ⟨sym, hsym, _, hwords⟩ := hdisplay v init st' hfound
  have hshown : (Ty.pointer .int).display ++ Ty.brackets ([(2 : Int32), 5].map (·.toInt.toNat)) =
      "int*[2][5]" := by decide +kernel
  have hgrid : "int*[2][5]" = (Ty.array (.array (.pointer .int) 5) 2).display := by decide +kernel
  rw [hshown] at hwords
  refine ⟨d, rest, v, init, st', sym, hd, hfound, hsym, hwords, ?_⟩
  rw [hgrid] at hwords
  exact (display_unambiguous.1 _ _).1 hwords

end Check

end MiniC
