/-
  MiniC.Proofs.Relabelling.Runs

  **Reading an expression looks at no name, at no line and at nothing beyond.**

  What is read from relabelled tokens is the relabelled phrase.  And tokens may
  follow: reading a phrase gives the same phrase, and leaves what follows as
  it is, if the phrase was read to its end and what follows does not go on
  with it (`Fresh`).

  Both are one statement, proved along the recursion of the reading functions:
  tokens `ts` are read as `φ.tokens B ts` is, the relabelled tokens before
  `B`.  A phrase in which reading ended says nothing about more tokens, so
  there `B` has to be empty (`Kept`).
-/
import MiniC.Proofs.Reading.Words
import MiniC.Proofs.Relabelling.Basic

namespace MiniC

open Outline

variable {B : List Token}

/-! ## §1. Tokens before others -/

/-- What follows goes on with no phrase that could end before it. -/
def Fresh (B : List Token) : Prop :=
  ∀ k ∈ (kinds B).head?,
    k ≠ .punct .lparen ∧ k ≠ .punct .star ∧ k ≠ .punct .lbracket ∧ k ≠ .keyword .kwElse

theorem fresh_nil : Fresh [] := nofun

/-- If reading ended, no tokens follow. -/
def Kept (B : List Token) {α : Type} (rest? : Option α) : Prop := rest? = none → B = []

theorem kept_some {α : Type} (a : α) : Kept B (some a) := nofun

theorem kept_map {α β : Type} {rest? : Option α} {f : α → β} (h : Kept B (rest?.map f)) :
    Kept B rest? := by
  intro hnone
  exact h (by rw [hnone]; rfl)

theorem Kept.map {α β : Type} {rest? : Option α} {f : α → β} (h : Kept B rest?) :
    Kept B (rest?.map f) :=
  fun hnone => h (Option.map_eq_none_iff.1 hnone)

theorem Kept.nil {α : Type} (h : Kept B (none : Option α)) : B = [] := h rfl

namespace Relabelling

variable (φ : Relabelling) (B : List Token)

/-- The relabelled tokens, and what follows them. -/
def tokens (ts : List Token) : List Token := ts.map φ.token ++ B

variable {φ B}

@[simp] theorem tokens_cons (t : Token) (ts : List Token) :
    φ.tokens B (t :: ts) = φ.token t :: φ.tokens B ts := rfl

@[simp] theorem tokens_nil : φ.tokens B [] = B := rfl

/-- The fault of finding the end of the text. -/
theorem expected_front (wanted : Wanted) (last : Nat) :
    Fault.expected wanted (front (φ.line last) []) = φ.fault (.expected wanted (front last [])) :=
  φ.expected_token wanted (front last [])

theorem unexpected_front (last : Nat) :
    Fault.unexpected (front (φ.line last) []) = φ.fault (.unexpected (front last [])) :=
  φ.unexpected_token (front last [])

/-- Tokens that do not begin with a piece of punctuation do not begin with it
when they are relabelled, and what follows begins otherwise as well. -/
theorem tokens_ne (φ : Relabelling) {p : Punct} {ts : List Token}
    (hne : ∀ line after, ts = ⟨.punct p, line⟩ :: after → False)
    (hB : ts = [] → ∀ k ∈ (kinds B).head?, k ≠ .punct p) :
    ∀ line after, φ.tokens B ts = ⟨.punct p, line⟩ :: after → False := by
  intro line after hts
  cases ts with
  | nil => exact hB rfl _ (congrArg (fun ts => (kinds ts).head?) hts) rfl
  | cons t ts =>
    obtain ⟨ht, _⟩ := List.cons.inj hts
    have hkind : φ.kind t.kind = .punct p := congrArg Token.kind ht
    rw [kind_eq_punct] at hkind
    exact hne t.line ts (by rw [← hkind])

/-- The phrase and what is left are relabelled. -/
def moved (φ : Relabelling) (B : List Token) {α : Type} (f : α → α)
    (r : α × Option (List Token)) : α × Option (List Token) :=
  (f r.1, r.2.map (φ.tokens B))

/-! ## §2. Single steps -/

variable {last : Nat} {ts : List Token}

section

variable (φ)
variable {rest : Left ts.length}

/-- A sign is met or missed on both sides. -/
theorem expect_follows {p : Punct} (ts : List Token) :
    φ.Follows (B = []) (fun rest rest' => rest'.1 = φ.tokens B rest.1)
      (expect last p ts) (expect (φ.line last) p (φ.tokens B ts)) := by
  cases ts with
  | nil =>
    refine .fail fun hB => ?_
    subst hB
    exact congrArg Except.error (expected_front _ last)
  | cons t ts =>
    rw [tokens_cons]
    unfold expect
    simp only [kind_token, kind_eq_punct]
    split
    · exact .pure rfl
    · rw [expected_token]
      exact .throw _

/-- A name is read as the relabelled one. -/
theorem readName_follows (ts : List Token) :
    φ.Follows (B = [])
      (fun r r' => r'.1 = (φ.name r.1.1, φ.line r.1.2) ∧ r'.2.1 = φ.tokens B r.2.1)
      (readName last ts) (readName (φ.line last) (φ.tokens B ts)) := by
  cases ts with
  | nil =>
    refine .fail fun hB => ?_
    subst hB
    exact congrArg Except.error (expected_front _ last)
  | cons t ts =>
    obtain ⟨k, line⟩ := t
    cases k with
    | identifier x => exact .pure ⟨rfl, rfl⟩
    | _ => exact .throw _

/-- Stars after a type are read as they were. -/
theorem readStars_relabelled (hB : Fresh B) (ty : Ty) (ts : List Token) :
    (readStars ty (φ.tokens B ts)).1 = (readStars ty ts).1 ∧
      (readStars ty (φ.tokens B ts)).2.1 = φ.tokens B (readStars ty ts).2.1 := by
  induction ts generalizing ty with
  | nil =>
    cases B with
    | nil => exact ⟨rfl, rfl⟩
    | cons b B =>
      have hread : readStars ty (b :: B) = (ty, .all (b :: B)) := if_neg (hB _ rfl).2.1
      rw [tokens_nil, hread]
      exact ⟨rfl, rfl⟩
  | cons t ts ih =>
    simp only [tokens_cons, readStars, kind_token, kind_eq_punct]
    split
    · exact ih (.pointer ty)
    · exact ⟨rfl, rfl⟩

theorem baseTy?_kind (k : Kind) : baseTy? (φ.kind k) = baseTy? k := by
  cases k <;> rfl

/-- A type is read on both sides. -/
theorem readTy_follows (hB : Fresh B) (ts : List Token) :
    φ.Follows (B = []) (fun r r' => r'.1 = r.1 ∧ r'.2.1 = φ.tokens B r.2.1)
      (readTy last ts) (readTy (φ.line last) (φ.tokens B ts)) := by
  cases ts with
  | nil =>
    refine .fail fun hB => ?_
    subst hB
    exact congrArg Except.error (expected_front _ last)
  | cons t ts =>
    rw [tokens_cons]
    unfold readTy
    simp only [kind_token, baseTy?_kind]
    split
    · exact .pure (readStars_relabelled φ hB _ ts)
    · rw [expected_token]
      exact .throw _

/-- A cast is read on both sides. -/
theorem readCast_follows (hB : Fresh B) (ts : List Token) :
    φ.Follows (B = []) (fun r r' => r'.1 = r.1 ∧ r'.2.1 = φ.tokens B r.2.1)
      (readCast last ts) (readCast (φ.line last) (φ.tokens B ts)) := by
  refine (readTy_follows φ hB ts).bind ?_
  rintro ⟨ty, rest⟩ ⟨_, rest', hlt⟩ ⟨hty, hrest⟩
  obtain rfl : rest' = φ.tokens B rest.1 := hrest
  subst hty
  exact (expect_follows φ rest.1).bind fun after after' hafter => .pure ⟨rfl, hafter⟩

/-! What a step gives where it succeeds. -/

theorem expect_ok {p : Punct} (h : expect last p ts = .ok rest) :
    ∃ hlt, expect (φ.line last) p (φ.tokens B ts) = .ok ⟨φ.tokens B rest.1, hlt⟩ := by
  obtain ⟨⟨rest', hlt⟩, h', hrest⟩ := (expect_follows φ (B := B) ts).ok h
  obtain rfl : rest' = φ.tokens B rest.1 := hrest
  exact ⟨hlt, h'⟩

/-- A name was read: the relabelled one is read. -/
theorem readName_ok {x : String} {line : Nat} (h : readName last ts = .ok ((x, line), rest)) :
    ∃ hlt, readName (φ.line last) (φ.tokens B ts) =
      .ok ((φ.name x, φ.line line), ⟨φ.tokens B rest.1, hlt⟩) := by
  obtain ⟨⟨_, rest', hlt⟩, h', hname, hrest⟩ := (readName_follows φ (B := B) ts).ok h
  obtain rfl : rest' = φ.tokens B rest.1 := hrest
  subst hname
  exact ⟨hlt, h'⟩

/-- A cast was read: it is read again. -/
theorem readCast_ok (hB : Fresh B) {ty : Ty} (h : readCast last ts = .ok (ty, rest)) :
    ∃ hlt, readCast (φ.line last) (φ.tokens B ts) = .ok (ty, ⟨φ.tokens B rest.1, hlt⟩) := by
  obtain ⟨⟨_, rest', hlt⟩, h', hty, hrest⟩ := (readCast_follows φ hB ts).ok h
  obtain rfl : rest' = φ.tokens B rest.1 := hrest
  subst hty
  exact ⟨hlt, h'⟩

/-- A type was read: it is read again. -/
theorem readTy_ok (hB : Fresh B) {ty : Ty} (h : readTy last ts = .ok (ty, rest)) :
    ∃ hlt, readTy (φ.line last) (φ.tokens B ts) = .ok (ty, ⟨φ.tokens B rest.1, hlt⟩) := by
  obtain ⟨⟨_, rest', hlt⟩, h', hty, hrest⟩ := (readTy_follows φ hB ts).ok h
  obtain rfl : rest' = φ.tokens B rest.1 := hrest
  subst hty
  exact ⟨hlt, h'⟩

end

theorem operator?_relabelled (ob : Bool) (p : Punct) (line : Nat) :
    operator? ob p (φ.line line) = (operator? ob p line).map φ.node := by
  cases p <;> cases ob <;> rfl

/-- The first token opens a type as before. -/
theorem startsType_tokens (h : Kept B ts.head?) : startsType (φ.tokens B ts) = startsType ts := by
  cases ts with
  | nil =>
    obtain rfl := h.nil
    rfl
  | cons t ts => exact φ.isType_kind t.kind

theorem ends_kind (stop : Stop) (k : Kind) : stop.ends (φ.kind k) = stop.ends k := by
  cases stop <;> simp [Stop.ends]

end Relabelling

/-! ## §3. Expressions -/

namespace Outline

open Relabelling

/-- Reading an expression ends where there is no token. -/
theorem RunRead.rest_nil {last : Nat} {stop : Stop} {ob : Bool} {e : Run}
    {rest : Option (Token × List Token)} (h : RunRead last stop ob [] e rest) : rest = none := by
  cases h
  rfl

/-- Arguments end where there is no token. -/
theorem MoreArgsRead.rest_nil {last : Nat} {args : Args} {rest : Option (List Token)}
    (h : MoreArgsRead last [] args rest) : rest = none := by
  cases h with
  | broken hrun => rfl
  | comma hrun hs hmore => cases hrun.rest_nil
  | last hrun hs => cases hrun.rest_nil

-- a case for each way to read: it goes the same way on the relabelled tokens
mutual

/-- An operand or operator is read as it was. -/
theorem NodeRead.moved (φ : Relabelling) {B : List Token} (hB : Fresh B) {last : Nat} {ob : Bool}
    {t : Token} {ts : List Token} {n : Node} {rest : Option (List Token)} :
    NodeRead last ob t ts n rest → Kept B rest →
    NodeRead (φ.line last) ob (φ.token t) (φ.tokens B ts) (φ.node n) (rest.map (φ.tokens B))
  | .int hk, _ => .int (congrArg φ.kind hk)
  | .float hk, _ => .float (congrArg φ.kind hk)
  | .call hk hargs, hkept => .call (congrArg φ.kind hk) (hargs.moved φ hB hkept)
  | .name hk hne, _ =>
    .name (congrArg φ.kind hk) (tokens_ne φ hne fun _ k hk => (hB k hk).1)
  | .cast hk hty hcast, _ => by
    have hty' : startsType (φ.tokens B ts) = true := by
      rw [startsType_tokens, hty]
      cases ts with
      | nil => cases hty
      | cons s ts => exact kept_some s
    obtain ⟨_, hcast'⟩ := readCast_ok φ hB hcast
    exact .cast (congrArg φ.kind hk) hty' hcast'
  | .badCast hk hty hcast, hkept => by
    obtain rfl := hkept.nil
    have hty' : startsType (φ.tokens [] ts) = true := by rw [startsType_tokens fun _ => rfl, hty]
    exact .badCast (congrArg φ.kind hk) hty' ((readCast_follows φ hB ts).error hcast rfl)
  | .group hk hty hrun, hkept => by
    have hty' : ¬ startsType (φ.tokens B ts) = true := by
      rw [startsType_tokens]
      · exact hty
      · intro hts
        obtain rfl := List.head?_eq_none_iff.1 hts
        exact kept_map hkept hrun.rest_nil
    have hgroup : NodeRead (φ.line last) ob (φ.token t) _ _ _ :=
      .group (congrArg φ.kind hk) hty' (hrun.moved φ hB (kept_map hkept))
    rw [Option.map_map] at hgroup ⊢
    exact hgroup
  | .operator hp hk hop, _ => by
    refine .operator hp (congrArg φ.kind hk) ?_
    rw [line_token, operator?_relabelled, hop]
    rfl
  | .noOperator hp hk hop, _ => by
    show NodeRead _ _ _ _ (.broken (φ.fault (.unexpected t))) none
    rw [← unexpected_token]
    refine .noOperator hp (congrArg φ.kind hk) ?_
    rw [line_token, operator?_relabelled, hop]
    rfl
  | .unexpected hint hfloat hid hpunct, _ => by
    have hother : φ.kind t.kind = t.kind := by
      cases hk : t.kind with
      | identifier x => exact (hid x hk).elim
      | _ => rfl
    rw [← hother] at hint hfloat hid hpunct
    show NodeRead _ _ _ _ (.broken (φ.fault (.unexpected t))) none
    rw [← unexpected_token]
    exact .unexpected hint hfloat hid hpunct

/-- A run is read as it was. -/
theorem RunRead.moved (φ : Relabelling) {B : List Token} (hB : Fresh B) {last : Nat} {stop : Stop}
    {ob : Bool} {ts : List Token} {e : Run} {rest : Option (Token × List Token)} :
    RunRead last stop ob ts e rest → Kept B rest →
    RunRead (φ.line last) stop ob (φ.tokens B ts) (φ.run e)
      (rest.map fun s => (φ.token s.1, φ.tokens B s.2))
  | .nil, hkept => by
    obtain rfl := hkept.nil
    show RunRead _ _ _ [] (.last (.broken (φ.fault (.unexpected (front last []))))) none
    rw [← unexpected_front]
    exact .nil
  | .atStop hstop, _ => by
    show RunRead _ _ _ _ (.last (.broken (φ.fault (.expected _ _)))) none
    rw [← expected_token]
    exact .atStop (by rwa [kind_token, ends_kind])
  | .broken hstop hnode, hkept =>
    .broken (by rwa [kind_token, ends_kind]) (hnode.moved φ hB fun _ => hkept rfl)
  | .unended hstop hnode, hkept => by
    obtain rfl := hkept.nil
    show RunRead _ _ _ _ (.more _ (.last (.broken (φ.fault (.unexpected (front last [])))))) none
    rw [← unexpected_front]
    exact .unended (by rwa [kind_token, ends_kind]) (hnode.moved φ hB (kept_some _))
  | .last hstop hnode hs, _ =>
    .last (by rwa [kind_token, ends_kind]) (hnode.moved φ hB (kept_some _))
      (by rwa [kind_token, ends_kind])
  | .more hstop hnode hs hrun, hkept => by
    refine .more (by rwa [kind_token, ends_kind]) (hnode.moved φ hB (kept_some _))
      (by rwa [kind_token, ends_kind]) ?_
    rw [isOperand_node]
    exact hrun.moved φ hB hkept

/-- Arguments are read as they were. -/
theorem ArgsRead.moved (φ : Relabelling) {B : List Token} (hB : Fresh B) {last : Nat}
    {ts : List Token} {args : Args} {rest : Option (List Token)} :
    ArgsRead last ts args rest → Kept B rest →
    ArgsRead (φ.line last) (φ.tokens B ts) (φ.args args) (rest.map (φ.tokens B))
  | .none, _ => .none
  | .some hne hmore, hkept => by
    refine .some (tokens_ne φ hne fun hts => ?_) (hmore.moved φ hB hkept)
    subst hts
    obtain rfl := hkept hmore.rest_nil
    exact fun _ hk => absurd hk (Option.not_mem_none _)

/-- Arguments after the first are read as they were. -/
theorem MoreArgsRead.moved (φ : Relabelling) {B : List Token} (hB : Fresh B) {last : Nat}
    {ts : List Token} {args : Args} {rest : Option (List Token)} :
    MoreArgsRead last ts args rest → Kept B rest →
    MoreArgsRead (φ.line last) (φ.tokens B ts) (φ.args args) (rest.map (φ.tokens B))
  | .broken hrun, hkept => .broken (hrun.moved φ hB fun _ => hkept rfl)
  | .comma hrun hs hmore, hkept =>
    .comma (hrun.moved φ hB (kept_some _)) (congrArg φ.kind hs) (hmore.moved φ hB hkept)
  | .last hrun hs, _ =>
    .last (hrun.moved φ hB (kept_some _)) (by rwa [kind_token, kind_eq_punct])

end

end Outline

namespace Relabelling

variable {φ : Relabelling} {B : List Token} {last : Nat} {ts : List Token}

/-- A phrase made of what was read, with the same tokens left. -/
theorem plain_moved {α β β' : Type} {P P' : List Token → Prop} {f : α → α} {a a' : α}
    {rest : Option β} {rest' : Option β'} {w : β → List Token} {w' : β' → List Token}
    {g : β → Subtype P} {g' : β' → Subtype P'}
    (hrest : rest'.map w' = (rest.map w).map (φ.tokens B)) (ha : a' = f a := by rfl)
    (hg : ∀ l, (g l).1 = w l := by intro _; rfl) (hg' : ∀ l, (g' l).1 = w' l := by intro _; rfl) :
    plain (a', rest'.map g') = φ.moved B f (plain (a, rest.map g)) := by
  have hleft : (rest.map g).map (·.1) = rest.map w := by
    rw [Option.map_map]
    exact congrArg (Option.map · rest) (funext hg)
  have hleft' : (rest'.map g').map (·.1) = rest'.map w' := by
    rw [Option.map_map]
    exact congrArg (Option.map · rest') (funext hg')
  show (a', (rest'.map g').map _) = (f a, ((rest.map g).map _).map _)
  rw [hleft, hleft', hrest, ha]

/-- What is left after the word that ended an expression. -/
theorem left_movedRun {n n' : Nat} {rest : Option (Token × Left n)}
    {rest' : Option (Token × Left n')}
    (h : (rest'.map fun s => (s.1, s.2.1)) =
      (rest.map fun s => (s.1, s.2.1)).map fun s => (φ.token s.1, φ.tokens B s.2)) :
    (rest'.map fun s => s.2.1) = (rest.map fun s => s.2.1).map (φ.tokens B) := by
  have h := congrArg (Option.map Prod.snd) h
  rw [Option.map_map, Option.map_map, Option.map_map] at h
  rw [Option.map_map]
  exact h

variable (φ)

/-- **An expression is read as it was.** -/
theorem readRun_moved (hB : Fresh B) {stop : Stop} {ob : Bool} {e : Run}
    {rest : Option (Token × Left ts.length)} (hread : readRun last stop ob ts = (e, rest))
    (hkept : Kept B rest) :
    ∃ rest', readRun (φ.line last) stop ob (φ.tokens B ts) = (φ.run e, rest') ∧
      (rest'.map fun s => (s.1, s.2.1)) =
        (rest.map fun s => (s.1, s.2.1)).map fun s => (φ.token s.1, φ.tokens B s.2) := by
  exact eq_of_plainRun ((readRun_read hread).moved φ hB hkept.map).eq

/-! ## §4. Declarations -/

/-- Lengths of arrays are read as they were. -/
theorem readLengths_moved (hB : Fresh B) (ts : List Token)
    (hkept : Kept B (readLengths last ts).2) :
    plain (readLengths (φ.line last) (φ.tokens B ts)) =
      φ.moved B (List.map φ.run) (plain (readLengths last ts)) := by
  induction ts using readLengths.induct last with
  | case1 line after e hrun =>
    rw [readLengths_broken hrun] at hkept ⊢
    obtain rfl := hkept.nil
    obtain ⟨rest', hrun', hrest⟩ := readRun_moved φ hB hrun fun _ => rfl
    obtain rfl := Option.map_eq_none_iff.1 hrest
    show plain (readLengths _ (⟨.punct .lbracket, φ.line line⟩ :: φ.tokens [] after)) = _
    rw [readLengths_broken hrun']
    rfl
  | case2 line after e s rest hrun es rest' hmore ih =>
    rw [readLengths_more hrun hmore] at hkept ⊢
    obtain ⟨left, hrun', hleft⟩ := readRun_moved φ hB hrun (kept_some _)
    obtain ⟨hlt, rfl⟩ := eq_some_of_map_run hleft
    rw [hmore] at ih
    obtain ⟨left', hmore', hleft'⟩ := eq_of_plain (ih (kept_map hkept))
    show plain (readLengths _ (⟨.punct .lbracket, φ.line line⟩ :: φ.tokens B after)) = _
    rw [readLengths_more hrun' hmore']
    exact plain_moved hleft'
  | case3 ts hne =>
    have hne' := tokens_ne φ hne fun _ k hk => (hB k hk).2.2.1
    rw [readLengths_none hne, readLengths_none hne']
    rfl

/-- An initial value is read as it was. -/
theorem readInitial_moved (hB : Fresh B) (ts : List Token)
    (hkept : Kept B (readInitial last ts).2) :
    plain (readInitial (φ.line last) (φ.tokens B ts)) =
      φ.moved B φ.initial (plain (readInitial last ts)) := by
  by_cases heq : ∃ line after, ts = ⟨.punct .eq, line⟩ :: after
  · obtain ⟨line, after, rfl⟩ := heq
    cases hrun : readRun last .semicolon false after with
    | mk e rest =>
      rw [readInitial_value hrun] at hkept ⊢
      obtain ⟨rest', hrun', hrest⟩ := readRun_moved φ hB hrun (kept_map hkept)
      show plain (readInitial _ (⟨.punct .eq, φ.line line⟩ :: φ.tokens B after)) = _
      rw [readInitial_value hrun']
      exact plain_moved (left_movedRun hrest)
  · have hne : ∀ line after, ts = ⟨.punct .eq, line⟩ :: after → False :=
      fun line after hts => heq ⟨line, after, hts⟩
    cases hsemi : expect last .semicolon ts with
    | error f =>
      rw [readInitial_broken hne hsemi] at hkept ⊢
      obtain rfl := hkept.nil
      have hne' := tokens_ne φ (B := []) hne fun _ => nofun
      rw [readInitial_broken hne' ((expect_follows φ ts).error hsemi rfl)]
      rfl
    | ok rest =>
      obtain ⟨hlt, hsemi'⟩ := expect_ok φ (B := B) hsemi
      have hne' := tokens_ne φ (B := B) hne fun hts => by
        subst hts
        cases hsemi
      rw [readInitial_none hne hsemi, readInitial_none hne' hsemi']
      rfl

/-- What is said of the declaration of a variable and of what is left. -/
def DeclarationMoved (B : List Token) {n n' : Nat}
    (r : Declaration × Option (Left n)) (r' : Declaration × Option (Left n')) : Prop :=
  Kept B r.2 → plain r' = φ.moved B φ.declaration (plain r)

/-- A declaration is read on both sides. -/
theorem readDeclaration_follows (hB : Fresh B) (ts : List Token) :
    φ.Follows (B = []) (φ.DeclarationMoved B) (readDeclaration last ts)
      (readDeclaration (φ.line last) (φ.tokens B ts)) := by
  refine (readTy_follows φ hB ts).bind ?_
  rintro ⟨base, afterTy⟩ ⟨_, afterTy', hlt⟩ ⟨hbase, hafterTy⟩
  obtain rfl : afterTy' = φ.tokens B afterTy.1 := hafterTy
  subst hbase
  refine (readName_follows φ afterTy.1).bind ?_
  rintro ⟨⟨x, line⟩, afterName⟩ ⟨_, afterName', hlt'⟩ ⟨hname, hafterName⟩
  obtain rfl : afterName' = φ.tokens B afterName.1 := hafterName
  subst hname
  have hlengths : Kept B (readLengths last afterName.1).2 → _ := readLengths_moved φ hB afterName.1
  dsimp only
  cases hread : readLengths last afterName.1 with
  | mk lengths rest =>
    rw [hread] at hlengths
    cases rest with
    | none =>
      by_cases hnil : B = []
      · obtain ⟨left, hread', hleft⟩ := eq_of_plain (hlengths fun _ => hnil)
        obtain rfl := Option.map_eq_none_iff.1 hleft
        rw [hread']
        exact .pure fun _ => rfl
      · -- reading ended, and more tokens follow: nothing is said
        cases readLengths (φ.line last) (φ.tokens B afterName.1) with
        | mk lengths' rest' =>
          cases rest' with
          | none => exact .pure fun hkept => absurd hkept.nil hnil
          | some after => exact .pure fun hkept => absurd hkept.nil hnil
    | some afterLengths =>
      obtain ⟨left, hread', hleft⟩ := eq_of_plain (hlengths (kept_some _))
      obtain ⟨hle, rfl⟩ := eq_some_of_map_val hleft
      rw [hread']
      refine .pure fun hkept => ?_
      obtain ⟨left', hinit, hleft'⟩ :=
        eq_of_plain (readInitial_moved φ hB afterLengths.1 (kept_map hkept))
      rw [hinit]
      exact plain_moved hleft'

/-- A declaration was read: it is read again, before the same rest. -/
theorem readDeclaration_ok (hB : Fresh B) {d : Declaration} {rest : Option (Left ts.length)}
    (h : readDeclaration last ts = .ok (d, rest)) (hkept : Kept B rest) :
    ∃ rest', readDeclaration (φ.line last) (φ.tokens B ts) = .ok (φ.declaration d, rest') ∧
      rest'.map (·.1) = (rest.map (·.1)).map (φ.tokens B) := by
  obtain ⟨⟨d', rest'⟩, h', hmoved⟩ := (readDeclaration_follows φ hB ts).ok h
  obtain ⟨hd, hrest⟩ := Prod.mk.inj (hmoved hkept)
  obtain rfl : d' = φ.declaration d := hd
  exact ⟨rest', h', hrest⟩

end Relabelling

end MiniC
