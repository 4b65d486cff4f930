/-
  MiniC.Proofs.Typing.Exprs

  Checked expressions are well typed.

  The rules for operators keep the judgement (`HasTy.binary`, `HasTy.unary`,
  `HasTy.coerce`).  A run is collapsed to a tree whose operands are those of
  the run, so by an induction on that tree the whole run is well typed if its
  operands are (`hasTy_of_resolve`), and by one on the outline they are.

  The table of symbols grows while a program is checked.  All statements are
  about a table `Γ` and variables `U` beyond what has been found so far
  (`Check.Env.Fits`), so that they hold of the table in the end.
-/
import MiniC.Check.Runs
import MiniC.Proofs.Precedence.Collapsing
import MiniC.Proofs.Typing.Judgement

namespace MiniC

/-! ## §1. Operators -/

section Operators

variable {Γ : Symbols} {U : VarId → Prop}
variable {t : Ty} {e l r : Expr} {line : Nat}

/-- Nothing converts to an array. -/
theorem Typing.isArray_of_castable {s : Ty} (h : castable s t = true) : t.isArray = false := by
  cases t with
  | array base n => cases s <;> exact absurd h Bool.false_ne_true
  | _ => rfl

/-- An array stays well typed whatever type its root is taken as. -/
theorem HasTy.retype (h : HasTy Γ U e t) (ht : t.isArray = true) (ty : Ty) :
    HasTy Γ U (e.retype ty) t := by
  cases h with
  | literal => exact .literal
  | var hv hu hne => exact .var hv hu hne
  | call hf hargs => exact .call hf hargs
  | negate he hn => exact .negate he hn
  | not he hs => exact .not he hs
  | deref he hb hne => exact .deref he hb hne
  | addressOfVar hv ha => exact .addressOfVar hv ha
  | addressOfDeref he => exact .addressOfDeref he
  | cast he hc =>
    -- the type of a cast is the one it carries, but that is no array
    rw [Typing.isArray_of_castable hc] at ht
    exact absurd ht Bool.false_ne_true
  | assign hv ha hr hd hty => exact .assign hv ha hr hd hty
  | arith hl hr h => exact .arith hl hr h
  | compare hl hr h => exact .compare hl hr h
  | bitwise hl hr h => exact .bitwise hl hr h
  | logical hl hr h => exact .logical hl hr h

/-- An integer taken as a float. -/
theorem HasTy.implicitCast (he : HasTy Γ U e e.ty) (hi : e.ty = .int) :
    HasTy Γ U (Typing.implicitCast e .float) .float :=
  .cast he (by rw [hi]; rfl)

/-- What a conversion gives may be passed on. -/
theorem HasTy.coerce {e e' : Expr} {ty : Ty} (he : HasTy Γ U e e.ty)
    (h : Typing.coerce e ty = .ok e') : Passed Γ U e' ty := by
  refine ⟨Typing.ty_of_coerce h, ?_⟩
  unfold Typing.coerce at h
  split at h
  · rename_i hty
    cases h
    exact ⟨e.ty, he, hty ▸ .refl _⟩
  · split at h
    · rename_i hi _
      cases h
      exact ⟨.float, he.implicitCast hi, .refl _⟩
    · rename_i base n target ha _
      split at h
      · rename_i hb
        cases h
        rw [ha] at he
        exact ⟨.array base n, he.retype rfl _, hb ▸ .array base n⟩
      · cases h
    · cases h

/-- Two values that are no pointers are brought to one type of numbers. -/
theorem HasTy.promote {l r l' r' : Expr} (hl : HasTy Γ U l l.ty) (hr : HasTy Γ U r r.ty)
    (hlp : l.ty.isPointerLike = false) (hlv : l.ty ≠ .void)
    (h : Typing.promote l r = .ok (l', r')) :
    HasTy Γ U l' l'.ty ∧ HasTy Γ U r' r'.ty ∧
      (l'.ty = .int ∧ r'.ty = .int ∨ l'.ty = .float ∧ r'.ty = .float) := by
  unfold Typing.promote at h
  split at h
  · rename_i hli hrf
    cases h
    exact ⟨hl.implicitCast hli, hr, .inr ⟨rfl, hrf⟩⟩
  · rename_i hlf hri
    cases h
    exact ⟨hl, hr.implicitCast hri, .inr ⟨hlf, rfl⟩⟩
  · split at h
    · rename_i heq
      cases h
      refine ⟨hl, hr, ?_⟩
      -- equal types that are neither void nor pointers are those of numbers
      cases ht : l.ty with
      | int => exact .inl ⟨rfl, heq ▸ ht⟩
      | float => exact .inr ⟨rfl, heq ▸ ht⟩
      | void => exact absurd ht hlv
      | pointer base =>
        rw [ht] at hlp
        cases hlp
      | array base n =>
        rw [ht] at hlp
        cases hlp
    · cases h

/-- Arithmetic with a pointer obeys the rules. -/
theorem Typing.arithTyped_of_pointerArith {op : ArithOp} {l r : Ty}
    (h : pointerArith op l r = .ok t) : ArithTyped op l r t := by
  unfold pointerArith at h
  split at h
  · split at h
    · rename_i hp
      cases h
      exact .addPointer hp
    · cases h
  · split at h
    · rename_i hop
      obtain ⟨rfl | rfl, hp⟩ := hop
      · cases h
        exact .pointerAdd hp
      · cases h
        exact .pointerSub hp
    · cases h
  · split at h
    · rename_i hp
      rw [Bool.and_eq_true] at hp
      split at h
      · cases h
      · rename_i hd
        split at h
        · rename_i hop
          cases h
          rw [hop]
          exact .difference hp.1 hp.2 (not_not.1 hd)
        · cases h
    · cases h

/-- A comparison with a pointer obeys the rules and gives an integer. -/
theorem Typing.compareTyped_of_pointerCompare {l r : Ty} (h : pointerCompare l r = .ok t) :
    CompareTyped l r ∧ t = .int := by
  unfold pointerCompare at h
  split at h
  · rename_i hp
    rw [Bool.and_eq_true] at hp
    split at h
    · rename_i hd
      cases h
      exact ⟨.pointer hp.1 hp.2 hd, rfl⟩
    · cases h
  · cases h

/-- Both sides have values. -/
theorem Typing.requireValues_eq_ok {u : Unit} (h : requireValues l r = .ok u) :
    l.ty ≠ .void ∧ r.ty ≠ .void := by
  unfold requireValues at h
  split at h
  · cases h
  · rename_i hv
    exact not_or.1 hv

/-- What an operand may be turned into: itself, an integer as a float, or an
array as a pointer. -/
inductive Typing.Converts (e : Expr) : Expr → Prop where
  | same : Converts e e
  | cast : Converts e (implicitCast e .float)
  | decay {ty : Ty} (h : e.ty.isArray = true) : Converts e (e.retype ty)

/-- Coercion converts. -/
theorem Typing.converts_of_coerce {e' : Expr} {ty : Ty} (h : coerce e ty = .ok e') :
    Converts e e' := by
  unfold coerce at h
  split at h
  · cases h
    exact .same
  · split at h
    · cases h
      exact .cast
    · rename_i hty _
      split at h
      · cases h
        exact .decay (by rw [hty]; rfl)
      · cases h
    · cases h

/-- Promotion converts both sides. -/
theorem Typing.converts_of_promote {l' r' : Expr} (h : promote l r = .ok (l', r')) :
    Converts l l' ∧ Converts r r' := by
  unfold promote at h
  split at h
  · cases h
    exact ⟨.cast, .same⟩
  · cases h
    exact ⟨.same, .cast⟩
  · split at h <;> cases h
    exact ⟨.same, .same⟩

/-- **An operator stays with its operands**, which may be converted. -/
theorem Typing.converts_of_binary {op : BinaryOp} (h : binary op l r line = .ok e) :
    ∃ l' r' ty, e = .binary op l' r' ty line ∧ Converts l l' ∧ Converts r r' := by
  cases op with
  | assign =>
    replace h : assign l r line = .ok e := h
    unfold assign at h
    split at h
    · split at h
      · cases h
      · split at h
        · cases h
        · obtain ⟨r', hco, h⟩ := bind_eq_ok.1 h
          cases h
          exact ⟨_, r', _, rfl, .same, converts_of_coerce hco⟩
    · cases h
  | logical op | bitwise op =>
    obtain ⟨_, _, h⟩ := bind_eq_ok.1 h
    split at h <;> cases h
    exact ⟨l, r, _, rfl, .same, .same⟩
  | arith op | compare op =>
    obtain ⟨_, _, h⟩ := bind_eq_ok.1 h
    split at h
    · obtain ⟨t, _, h⟩ := bind_eq_ok.1 h
      cases h
      exact ⟨l, r, t, rfl, .same, .same⟩
    · obtain ⟨⟨l', r'⟩, hpro, h⟩ := bind_eq_ok.1 h
      cases h
      exact ⟨l', r', _, rfl, converts_of_promote hpro⟩

/-- An assignment keeps the judgement. -/
theorem HasTy.ofAssign (hl : HasTy Γ U l l.ty) (hr : HasTy Γ U r r.ty)
    (h : Typing.assign l r line = .ok e) : HasTy Γ U e e.ty := by
  unfold Typing.assign at h
  split at h
  · split at h
    · cases h
    · rename_i harray
      split at h
      · cases h
      · obtain ⟨r', hco, h⟩ := bind_eq_ok.1 h
        cases h
        obtain ⟨hty, t, hr', hd⟩ := hr.coerce hco
        exact .assign hl (by simpa using harray) hr' hd hty
  · cases h

/-- **An operator with two operands keeps the judgement.** -/
theorem HasTy.binary {op : BinaryOp} (hl : HasTy Γ U l l.ty) (hr : HasTy Γ U r r.ty)
    (h : Typing.binary op l r line = .ok e) : HasTy Γ U e e.ty := by
  cases op with
  | assign => exact hl.ofAssign hr h
  | logical op =>
    obtain ⟨_, _, h⟩ := bind_eq_ok.1 h
    split at h
    · rename_i hs
      cases h
      exact .logical hl hr (Bool.and_eq_true _ _ ▸ hs)
    · cases h
  | bitwise op =>
    obtain ⟨_, _, h⟩ := bind_eq_ok.1 h
    split at h
    · rename_i hi
      cases h
      exact .bitwise hl hr hi
    · cases h
  | arith op =>
    obtain ⟨_, hv, h⟩ := bind_eq_ok.1 h
    split at h
    · obtain ⟨t, ht, h⟩ := bind_eq_ok.1 h
      cases h
      exact .arith hl hr (Typing.arithTyped_of_pointerArith ht)
    · -- numbers: after promotion both are integers or both are floats
      rename_i hp
      obtain ⟨⟨l', r'⟩, hpro, h⟩ := bind_eq_ok.1 h
      cases h
      rw [Bool.not_eq_true, Bool.or_eq_false_iff] at hp
      obtain ⟨hl', hr', ⟨hli, hri⟩ | ⟨hlf, hrf⟩⟩ :=
        hl.promote hr hp.1 (Typing.requireValues_eq_ok hv).1 hpro
      · exact .arith hl' hr' (by rw [hli, hri]; exact .int op)
      · exact .arith hl' hr' (by rw [hlf, hrf]; exact .float op)
  | compare op =>
    obtain ⟨_, hv, h⟩ := bind_eq_ok.1 h
    split at h
    · obtain ⟨t, ht, h⟩ := bind_eq_ok.1 h
      cases h
      obtain ⟨hc, rfl⟩ := Typing.compareTyped_of_pointerCompare ht
      exact .compare hl hr hc
    · rename_i hp
      obtain ⟨⟨l', r'⟩, hpro, h⟩ := bind_eq_ok.1 h
      cases h
      rw [Bool.not_eq_true, Bool.or_eq_false_iff] at hp
      obtain ⟨hl', hr', ⟨hli, hri⟩ | ⟨hlf, hrf⟩⟩ :=
        hl.promote hr hp.1 (Typing.requireValues_eq_ok hv).1 hpro
      · exact .compare hl' hr' (by rw [hli, hri]; exact .int)
      · exact .compare hl' hr' (by rw [hlf, hrf]; exact .float)

/-- **An operator with one operand keeps the judgement.** -/
theorem HasTy.unary {op : UnaryOp} {target : Option Ty} {e e' : Expr} {line : Nat}
    (he : HasTy Γ U e e.ty) (h : Typing.unary op target e line = .ok e') :
    HasTy Γ U e' e'.ty := by
  obtain ⟨t, ht, h⟩ := bind_eq_ok.1 h
  cases h
  unfold Typing.unaryTy at ht
  cases op with
  | negate =>
    -- the rule gives the operand's type, which is the one the node carries
    dsimp only at ht
    split at ht
    · rename_i hi
      cases ht
      have hneg : HasTy Γ U (.unary .negate e .int line) e.ty := .negate he (.inl hi)
      rwa [hi] at hneg
    · rename_i hf
      cases ht
      have hneg : HasTy Γ U (.unary .negate e .float line) e.ty := .negate he (.inr hf)
      rwa [hf] at hneg
    · cases ht
    · cases ht
  | not =>
    dsimp only at ht
    split at ht
    · cases ht
    · split at ht
      · rename_i hs
        cases ht
        exact .not he hs
      · cases ht
  | deref =>
    dsimp only at ht
    split at ht
    · rename_i hb
      split at ht
      · cases ht
      · rename_i hne
        cases ht
        exact .deref he hb hne
    · cases ht
  | addressOf =>
    dsimp only at ht
    split at ht
    · split at ht
      · rename_i ha
        cases ht
        exact .addressOfVar he ha
      · cases ht
    · cases ht
      exact .addressOfDeref he
    · cases ht
  | cast =>
    dsimp only at ht
    split at ht
    · rename_i hc
      cases ht
      exact .cast he hc
    · cases ht

/-! ## §2. Runs -/

/-- What was typed has that type. -/
theorem typed_eq_ok {α : Type} {x : Except TypeError α} {a : α} (h : typed line x = .ok a) :
    x = .ok a := by
  cases x with
  | error e => cases h
  | ok a' =>
    cases h
    rfl

/-- If the operands of a part are well typed. -/
def Part.Typed (Γ : Symbols) (U : VarId → Prop) (p : Part Expr) : Prop :=
  ∀ e line, p = .operand e line → HasTy Γ U e e.ty

/-- A tree is well typed if its operands are. -/
theorem hasTy_of_finish {t : Tree Expr} (hops : ∀ p ∈ t.reading, p.Typed Γ U)
    (h : Precedence.finish line t = .ok e) : HasTy Γ U e e.ty := by
  induction t generalizing line e with
  | hole => cases h
  | operand a line' =>
    cases h
    exact hops _ (List.mem_singleton_self _) _ _ rfl
  | unary op target line' arg ih =>
    obtain ⟨a, harg, h⟩ := bind_eq_ok.1 h
    have ha := ih (fun p hp => hops p (List.mem_cons_of_mem _ hp)) harg
    exact ha.unary (typed_eq_ok h)
  | binary op line' left right ihl ihr =>
    obtain ⟨a, hleft, h⟩ := bind_eq_ok.1 h
    obtain ⟨b, hright, h⟩ := bind_eq_ok.1 h
    have ha := ihl (fun p hp => hops p (List.mem_append_left _ hp)) hleft
    have hb := ihr
      (fun p hp => hops p (List.mem_append_right _ (List.mem_cons_of_mem _ hp))) hright
    exact ha.binary hb (typed_eq_ok h)

/-- A run is well typed if its operands are. -/
theorem hasTy_of_resolve {ps : List (Part Expr)} (hops : ∀ p ∈ ps, p.Typed Γ U)
    (h : Precedence.resolve ps = .ok e) : HasTy Γ U e e.ty := by
  obtain ⟨t, _, hf, _, rfl⟩ := Precedence.collapse_of_resolve h
  exact hasTy_of_finish hops hf

end Operators

/-! ## §3. Names -/

/-- The second table knows all that the first one does; only how much of a
function has been seen may differ. -/
structure Symbols.Extends (Γ Γ' : Symbols) : Prop where
  var : ∀ {v : VarId} {sym : VarSymbol}, Γ.var? v = some sym → Γ'.var? v = some sym
  func : ∀ {f : FuncId} {sym : FuncSymbol}, Γ.func? f = some sym →
    ∃ sym', Γ'.func? f = some sym' ∧ sym'.name = sym.name ∧ sym'.params = sym.params ∧
      sym'.ret = sym.ret

theorem Symbols.Extends.refl (Γ : Symbols) : Γ.Extends Γ :=
  ⟨fun h => h, fun h => ⟨_, h, rfl, rfl, rfl⟩⟩

/-- Tables grow step by step. -/
theorem Symbols.Extends.trans {Γ Γ' Γ'' : Symbols} (h : Γ.Extends Γ') (h' : Γ'.Extends Γ'') :
    Γ.Extends Γ'' := by
  refine ⟨fun hv => h'.var (h.var hv), fun hf => ?_⟩
  obtain ⟨sym', hf', hn', hp', hr'⟩ := h.func hf
  obtain ⟨sym'', hf'', hn'', hp'', hr''⟩ := h'.func hf'
  exact ⟨sym'', hf'', hn''.trans hn', hp''.trans hp', hr''.trans hr'⟩

/-- No variable and no parameter lacks a value. -/
structure Symbols.Valued (Γ : Symbols) : Prop where
  var : ∀ {v : VarId} {sym : VarSymbol}, Γ.var? v = some sym → sym.ty ≠ .void
  func : ∀ {f : FuncId} {sym : FuncSymbol}, Γ.func? f = some sym → ∀ ty ∈ sym.params, ty ≠ .void

namespace Check

/-- What an expression may refer to is in the table and among the variables
given. -/
structure Env.Fits (env : Env) (Γ : Symbols) (U : VarId → Prop) : Prop where
  below : env.symbols.Extends Γ
  valued : env.symbols.Valued
  usable : ∀ {name : String} {v : VarId}, env.scope.get? name = some (.var v) → U v

/-- A variable found is bound and has its row. -/
theorem Env.var_eq_ok {env : Env} {name : String} {line : Nat} {v : VarId} {sym : VarSymbol}
    (h : env.var name line = .ok (v, sym)) :
    env.scope.get? name = some (.var v) ∧ env.symbols.var? v = some sym := by
  unfold Env.var at h
  split at h
  · rename_i hs
    split at h
    · rename_i hv
      cases h
      exact ⟨hs, hv⟩
    · cases h
  · cases h
  · cases h

/-- A function found is bound and has its row. -/
theorem Env.func_eq_ok {env : Env} {name : String} {line : Nat} {f : FuncId} {sym : FuncSymbol}
    (h : env.func name line = .ok (f, sym)) :
    env.scope.get? name = some (.func f) ∧ env.symbols.func? f = some sym := by
  unfold Env.func at h
  split at h
  · rename_i hs
    split at h
    · rename_i hf
      cases h
      exact ⟨hs, hf⟩
    · cases h
  · cases h
  · cases h

/-! ## §4. Checked expressions -/

section

variable {Γ : Symbols} {U : VarId → Prop} {env : Env}
variable {e : Expr}

theorem typed_operand (h : HasTy Γ U e e.ty) : (operand e).Typed Γ U := by
  rintro _ _ ⟨⟩
  exact h

mutual

/-- An operand or operator that was checked is typed. -/
theorem node_typed (hin : env.Fits Γ U) : (n : Outline.Node) → {p : Part Expr} →
    node env n = .ok p → p.Typed Γ U
  | .int n line, p, h => by
    cases h
    exact typed_operand .literal
  | .float x line, p, h => by
    cases h
    exact typed_operand .literal
  | .name x line, p, h => by
    obtain ⟨⟨v, sym⟩, hv, h⟩ := bind_eq_ok.1 h
    cases h
    obtain ⟨hs, hv⟩ := Env.var_eq_ok hv
    exact typed_operand (.var (hin.below.var hv) (hin.usable hs) (hin.valued.var hv))
  | .call f line args, p, h => by
    obtain ⟨⟨f, sym⟩, hf, h⟩ := bind_eq_ok.1 h
    obtain ⟨as, has, h⟩ := bind_eq_ok.1 h
    cases h
    obtain ⟨_, hf⟩ := Env.func_eq_ok hf
    -- the function may have got a body since, but its types are the same
    obtain ⟨sym', hf', _, hparams, hret⟩ := hin.below.func hf
    have has := arguments_typed hin args (hin.valued.func hf) has
    rw [← hparams] at has
    exact typed_operand (hret ▸ .call hf' has)
  | .group inner, p, h => by
    obtain ⟨ps, hps, h⟩ := bind_eq_ok.1 h
    obtain ⟨e, he, h⟩ := bind_eq_ok.1 h
    cases h
    exact typed_operand (hasTy_of_resolve (parts_typed hin inner hps) he)
  | .unary op target line, p, h => by
    cases h
    rintro _ _ ⟨⟩
  | .binary op line, p, h => by
    cases h
    rintro _ _ ⟨⟩
  | .broken f, p, h => by cases h

/-- The parts of a checked run are typed. -/
theorem parts_typed (hin : env.Fits Γ U) : (r : Outline.Run) → {ps : List (Part Expr)} →
    parts env r = .ok ps → ∀ p ∈ ps, p.Typed Γ U
  | .last n, ps, h => by
    obtain ⟨p, hp, h⟩ := bind_eq_ok.1 h
    cases h
    exact List.forall_mem_singleton.2 (node_typed hin n hp)
  | .more n rest, ps, h => by
    obtain ⟨p, hp, h⟩ := bind_eq_ok.1 h
    obtain ⟨ps, hps, h⟩ := bind_eq_ok.1 h
    cases h
    exact List.forall_mem_cons.2 ⟨node_typed hin n hp, parts_typed hin rest hps⟩

/-- Checked arguments are typed, each as its parameter. -/
theorem arguments_typed (hin : env.Fits Γ U) {line : Nat} : (args : Outline.Args) →
    {params : List Ty} → {es : List Expr} → (∀ ty ∈ params, ty ≠ .void) →
    arguments env line params args = .ok es → HaveTys Γ U es params
  | .none, [], es, _, h => by
    cases h
    exact .nil
  | .none, _ :: _, es, _, h => by cases h
  | .arg r rest, [], es, _, h => by cases h
  | .arg r rest, ty :: params, es, hne, h => by
    obtain ⟨ps, hps, h⟩ := bind_eq_ok.1 h
    obtain ⟨e, he, h⟩ := bind_eq_ok.1 h
    obtain ⟨e', he', h⟩ := bind_eq_ok.1 h
    obtain ⟨es, hes, h⟩ := bind_eq_ok.1 h
    cases h
    obtain ⟨hne, hnes⟩ := List.forall_mem_cons.1 hne
    have he := hasTy_of_resolve (parts_typed hin r hps) he
    obtain ⟨hty, t, he', hd⟩ := he.coerce (typed_eq_ok he')
    exact .cons he' hd hty hne (arguments_typed hin rest hnes hes)

end

/-- **A checked expression is well typed.** -/
theorem hasTy_of_run (hin : env.Fits Γ U) {r : Outline.Run} (h : run env r = .ok e) :
    HasTy Γ U e e.ty := by
  obtain ⟨ps, hps, h⟩ := bind_eq_ok.1 h
  exact hasTy_of_resolve (parts_typed hin r hps) h

theorem passed_of_runAs (hin : env.Fits Γ U) {ty : Ty} {r : Outline.Run}
    (h : runAs env ty r = .ok e) : Passed Γ U e ty := by
  obtain ⟨e', he', h⟩ := bind_eq_ok.1 h
  exact (hasTy_of_run hin he').coerce (typed_eq_ok h)

/-- A condition that was checked can be tested. -/
theorem condition_of_condition (hin : env.Fits Γ U) {r : Outline.Run}
    (h : condition env r = .ok e) : Condition Γ U e := by
  obtain ⟨e', he', h⟩ := bind_eq_ok.1 h
  have he := hasTy_of_run hin he'
  dsimp only at h
  split at h
  · cases h
  · rename_i hv
    cases h
    exact ⟨he, hv⟩

end

end Check

/-! ## §5. Arithmetic that is typed already -/

namespace Typing

variable {op : ArithOp} {t : Ty} {l r : Expr}

/-- Arithmetic with a pointer that obeys the rules has its type. -/
theorem pointerArith_of_arithTyped {l r : Ty} (h : ArithTyped op l r t)
    (hp : (l.isPointerLike || r.isPointerLike) = true) : pointerArith op l r = .ok t := by
  cases h with
  | int => cases hp
  | float => cases hp
  | pointerAdd hl =>
    cases l with
    | pointer base => rfl
    | array base n => rfl
    | _ => cases hl
  | pointerSub hl =>
    cases l with
    | pointer base => rfl
    | array base n => rfl
    | _ => cases hl
  | addPointer hr =>
    cases r with
    | pointer base => rfl
    | array base n => rfl
    | _ => cases hr
  | difference hl hr hd =>
    unfold pointerArith
    split
    · cases hl
    · cases hr
    · rw [if_pos (Bool.and_eq_true_iff.2 ⟨hl, hr⟩), if_neg (not_not.2 hd), if_pos rfl]

/-- Without a pointer, arithmetic is on two numbers of the type of the
result. -/
theorem eq_of_arithTyped {l r : Ty} (h : ArithTyped op l r t)
    (hp : ¬ (l.isPointerLike || r.isPointerLike) = true) : l = r ∧ l = t := by
  cases h with
  | int => exact ⟨rfl, rfl⟩
  | float => exact ⟨rfl, rfl⟩
  | pointerAdd hl => exact absurd (Bool.or_eq_true_iff.2 (.inl hl)) hp
  | pointerSub hl => exact absurd (Bool.or_eq_true_iff.2 (.inl hl)) hp
  | addPointer hr => exact absurd (Bool.or_eq_true_iff.2 (.inr hr)) hp
  | difference hl hr hd => exact absurd (Bool.or_eq_true_iff.2 (.inl hl)) hp

/-- Numbers of one type need no conversion. -/
theorem promote_of_ty (h : l.ty = r.ty) : promote l r = .ok (l, r) := by
  unfold promote
  split
  · rename_i hl hr
    rw [hl, hr] at h
    cases h
  · rename_i hl hr
    rw [hl, hr] at h
    cases h
  · rw [if_pos h]

theorem requireValues_of_ne (hl : l.ty ≠ .void) (hr : r.ty ≠ .void) : requireValues l r = .ok () :=
  if_neg (not_or.2 ⟨hl, hr⟩)

/-- **Arithmetic that obeys the rules is typed as it is.** -/
theorem binary_of_arithTyped (h : ArithTyped op l.ty r.ty t) (line : Nat) :
    binary (.arith op) l r line = .ok (.binary (.arith op) l r t line) := by
  rw [binary, requireValues_of_ne h.ne_void.1 h.ne_void.2.1]
  show (if _ then _ else _) = _
  by_cases hp : (l.ty.isPointerLike || r.ty.isPointerLike) = true
  · rw [if_pos hp, pointerArith_of_arithTyped h hp]
    rfl
  · obtain ⟨hsame, rfl⟩ := eq_of_arithTyped h hp
    rw [if_neg hp, promote_of_ty hsame]
    rfl

end Typing

/-! ## §6. Constants -/

/-- The constant that an expression stands for is a float exactly if the
expression is. -/
theorem ty_eq_float_of_constant? {Γ : Symbols} {U : VarId → Prop} : (e : Expr) → {t : Ty} →
    {c : Literal} → HasTy Γ U e t → e.constant? = some c → (c.ty = .float ↔ t = .float)
  | .literal value ty line, t, c, h, hc => by
    cases h
    cases hc
    exact Iff.rfl
  | .unary .negate a ty line, t, c, h, hc => by
    cases h with
    | negate ha hn =>
      unfold Expr.constant? at hc
      split at hc
      · rename_i n hv
        cases hc
        have ih := ty_eq_float_of_constant? a ha hv
        exact ih
      · rename_i x hv
        cases hc
        have ih := ty_eq_float_of_constant? a ha hv
        exact ih
      · cases hc
  | .unary .cast a ty line, t, c, h, hc => by
    cases h with
    | cast ha hcast =>
      unfold Expr.constant? at hc
      split at hc
      · cases hc
        exact ⟨fun _ => rfl, fun _ => rfl⟩
      · cases hc
        exact ⟨nofun, nofun⟩
      · rename_i target _ _ hif hfi
        -- nothing is converted, so the operand is of the same kind
        have ih := ty_eq_float_of_constant? a ha hc
        cases c with
        | int n =>
          refine ⟨nofun, ?_⟩
          rintro rfl
          exact absurd rfl (hif n hc)
        | float x =>
          rw [ih.1 rfl] at hcast
          refine ⟨fun _ => ?_, fun _ => rfl⟩
          cases target with
          | float => rfl
          | int => exact absurd rfl (hfi x hc)
          | _ => exact absurd hcast Bool.false_ne_true
  | .unary .not .., _, _, _, hc => by cases hc
  | .unary .addressOf .., _, _, _, hc => by cases hc
  | .unary .deref .., _, _, _, hc => by cases hc
  | .var .., _, _, _, hc => by cases hc
  | .call .., _, _, _, hc => by cases hc
  | .binary .., _, _, _, hc => by cases hc

end MiniC
