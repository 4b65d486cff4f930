/-
  MiniC.Proofs.Validation.Exprs

  **The code of well-typed expressions is valid.**

  On any stack, the code of an expression leaves one value of the type that
  the expression has there, or none if it has no value, above the values that
  were there before.  The induction is on the judgement.

  What the module declares has to agree with the table of symbols (`Agrees`),
  and there has to be memory; that it is there whenever it is read is for
  the whole module to say.
-/
import MiniC.Proofs.Lowering.Names
import MiniC.Proofs.Lowering.Operators
import MiniC.Proofs.Validation.Rules

namespace MiniC.Lower

open Wasm

/-! ## §1. Operators -/

section Operators

variable {C : Context} (ts : List ValType)

/-- An operator on integers with a constant on its right. -/
theorem codeTyped_const_int {c : Const} (hc : c.ty = .i32) (op : IntOp) :
    CodeTyped C [.const c, .int op] (.i32 :: ts) (.i32 :: ts) := by
  have hconst := InstrTyped.const (C := C) c
  rw [hc] at hconst
  exact (hconst.code (.i32 :: ts)).append ((InstrTyped.int op).code ts)

/-- An operator on floats with zero on its right. -/
theorem codeTyped_zero_float (op : FloatOp) :
    CodeTyped C [.const (.zero .f32), .float op] (.f32 :: ts) (op.ty :: ts) :=
  ((InstrTyped.const (.zero .f32)).code (.f32 :: ts)).append ((InstrTyped.float op).code ts)

/-- Multiplying by a size maps a word to a word. -/
theorem codeTyped_scale (stride : Nat) :
    CodeTyped C (scale stride) (.i32 :: ts) (.i32 :: ts) := by
  unfold scale
  split
  · exact .nil
  · exact codeTyped_const_int ts rfl .mul

/-- Dividing by a size maps a word to a word. -/
theorem codeTyped_unscale (stride : Nat) :
    CodeTyped C (unscale stride) (.i32 :: ts) (.i32 :: ts) := by
  unfold unscale
  split
  · exact .nil
  · exact codeTyped_const_int ts rfl .divS

variable {op : ArithOp} {l r t : Ty}

/-- What follows the left operand keeps its type. -/
theorem codeTyped_afterLeft (h : ArithTyped op l r t) :
    CodeTyped C (afterLeft op l r) (l.valType :: ts) (l.valType :: ts) := by
  unfold afterLeft
  split
  · rename_i hp
    simp only [Bool.and_eq_true, Bool.not_eq_true'] at hp
    rw [h.left_eq_int hp.1.2 hp.2]
    exact codeTyped_scale ts _
  · exact .nil

/-- What follows the right one keeps its type. -/
theorem codeTyped_afterRight (h : ArithTyped op l r t) :
    CodeTyped C (afterRight op l r) (r.valType :: ts) (r.valType :: ts) := by
  unfold afterRight
  split
  · rename_i hp
    simp only [Bool.and_eq_true, Bool.not_eq_true'] at hp
    rw [h.right_eq_int hp.1.2 hp.2]
    exact codeTyped_scale ts _
  · exact .nil

theorem ty_floatArith (op : ArithOp) : (floatArith op).ty = .f32 := by
  cases op <;> rfl

theorem ty_floatCompare (op : CompareOp) : (floatCompare op).ty = .i32 := by
  cases op <;> rfl

/-- Arithmetic is on floats alone, or on what the stack holds as integers. -/
theorem valTypes_of_arithTyped (h : ArithTyped op l r t) :
    (l = .float ∧ r = .float ∧ t = .float) ∨
      (l ≠ .float ∧ l.valType = .i32 ∧ r.valType = .i32 ∧ t.valType = .i32) := by
  cases h with
  | int op => exact .inr ⟨nofun, rfl, rfl, rfl⟩
  | float op => exact .inl ⟨rfl, rfl, rfl⟩
  | pointerAdd hp =>
    exact .inr ⟨Ty.ne_float_of_isPointerLike hp, Ty.valType_of_isPointerLike hp, rfl,
      valType_decay hp⟩
  | pointerSub hp =>
    exact .inr ⟨Ty.ne_float_of_isPointerLike hp, Ty.valType_of_isPointerLike hp, rfl,
      valType_decay hp⟩
  | addPointer hp =>
    exact .inr ⟨nofun, rfl, Ty.valType_of_isPointerLike hp, valType_decay hp⟩
  | difference hp hq hd =>
    exact .inr ⟨Ty.ne_float_of_isPointerLike hp, Ty.valType_of_isPointerLike hp,
      Ty.valType_of_isPointerLike hq, rfl⟩

/-- Arithmetic leaves a value of its type. -/
theorem codeTyped_arithmetic (h : ArithTyped op l r t) :
    CodeTyped C (arithmetic op l r) (r.valType :: l.valType :: ts) (t.valType :: ts) := by
  unfold arithmetic
  rcases valTypes_of_arithTyped h with ⟨rfl, rfl, rfl⟩ | ⟨hne, hl, hr, ht⟩
  · rw [if_pos rfl]
    have hop := InstrTyped.float (C := C) (floatArith op)
    rw [ty_floatArith] at hop
    exact hop.code ts
  · rw [if_neg hne, hl, hr, ht]
    refine .cons (.int (intArith op)) ?_
    split
    · exact codeTyped_unscale ts _
    · exact .nil

/-- A comparison leaves a word. -/
theorem codeTyped_comparison {op : CompareOp} (h : CompareTyped l r) :
    CodeTyped C [comparison op l] (r.valType :: l.valType :: ts) (.i32 :: ts) := by
  cases h with
  | int => exact (InstrTyped.int (intCompare true op)).code ts
  | float =>
    have hop := InstrTyped.float (C := C) (floatCompare op)
    rw [ty_floatCompare] at hop
    exact hop.code ts
  | pointer hp hq hd =>
    have hcode : comparison op l = .int (intCompare false op) := by
      simp [comparison, Ty.ne_float_of_isPointerLike hp, hp]
    rw [hcode, Ty.valType_of_isPointerLike hp, Ty.valType_of_isPointerLike hq]
    exact (InstrTyped.int _).code ts

/-- A condition leaves a word. -/
theorem codeTyped_toCondition (ty : Ty) :
    CodeTyped C (toCondition ty) (ty.valType :: ts) (.i32 :: ts) := by
  unfold toCondition
  split
  · rename_i hty
    rw [hty]
    exact codeTyped_zero_float ts .ne
  · rename_i hty
    rw [Ty.valType_of_ne_float hty]
    exact .nil

/-- A truth value is a word. -/
theorem codeTyped_toTruth (e : Expr) :
    CodeTyped C (toTruth e) (e.ty.valType :: ts) (.i32 :: ts) := by
  unfold toTruth
  split
  · exact codeTyped_toCondition ts e.ty
  · rename_i hty
    rw [Ty.valType_of_ne_float hty]
    split
    · exact .nil
    · exact codeTyped_const_int ts rfl .ne

/-- A cast leaves a value of the new type. -/
theorem codeTyped_convert {s t : Ty} (h : Typing.castable s t = true) :
    CodeTyped C (convert s t) (s.valType :: ts) (t.valType :: ts) := by
  cases s with
  | int =>
    cases t with
    | int => exact .nil
    | float => exact InstrTyped.convert.code ts
    | pointer base => exact .nil
    | void => cases h
    | array base n => cases h
  | float =>
    cases t with
    | int => exact InstrTyped.truncate.code ts
    | float => exact .nil
    | _ => cases h
  | pointer base =>
    cases t with
    | int => exact .nil
    | pointer base' => exact .nil
    | _ => cases h
  | void => cases h
  | array base n => cases h

/-- A load leaves a value of the pointee. -/
theorem codeTyped_loadFrom (hm : C.memory = true) (pointee : Ty) :
    CodeTyped C (loadFrom pointee) (.i32 :: ts) (pointee.valType :: ts) := by
  unfold loadFrom
  split
  · rename_i ha
    rw [Ty.valType_of_isArray ha]
    exact .nil
  · exact (InstrTyped.load _ hm).code ts

end Operators

/-! ## §2. Expressions -/

theorem toList_result? {ty : Ty} (h : ty ≠ .void) : ty.result?.toList = [ty.valType] := by
  rw [Ty.result?_of_ne_void h]
  rfl

section Exprs

variable {Γ : Symbols} {U : VarId → Prop} {C : Context}

/-- Reading a variable leaves a value of its type. -/
theorem instrTyped_get (hC : Agrees Γ U C) {v : VarId} {sym : VarSymbol}
    (hv : Γ.var? v = some sym) (hu : U v) :
    InstrTyped C ((Env.ofSymbols Γ).get v) [] [sym.ty.valType] := by
  cases hs : sym.storage with
  | globalVar =>
    rw [(get_set_of_globalVar hv hs).1]
    exact .globalGet (hC.globalTy hv hu hs)
  | localVar =>
    rw [(get_set_of_localVar hv hs).1]
    exact .localGet (hC.localTy hv hu hs)

/-- No global array is assigned to. -/
theorem instrTyped_set (hC : Agrees Γ U C) {v : VarId} {sym : VarSymbol}
    (hv : Γ.var? v = some sym) (hu : U v)
    (ha : sym.storage = .globalVar → sym.ty.isArray = false) :
    InstrTyped C ((Env.ofSymbols Γ).set v) [sym.ty.valType] [] := by
  cases hs : sym.storage with
  | globalVar =>
    have hty := hC.globalTy hv hu hs
    rw [ha hs] at hty
    rw [(get_set_of_globalVar hv hs).2]
    exact .globalSet hty
  | localVar =>
    rw [(get_set_of_localVar hv hs).2]
    exact .localSet (hC.localTy hv hu hs)

/-- The code leaves one value more, of this type, on any stack. -/
def Leaves (C : Context) (code : List Instr) (t : ValType) : Prop :=
  ∀ ts, CodeTyped C code ts (t :: ts)

theorem leaves_of_ne_void {code : List Instr} {ty : Ty} (hne : ty ≠ .void)
    (h : ∀ ts, CodeTyped C code ts (ty.result?.toList ++ ts)) : Leaves C code ty.valType := by
  rw [toList_result? hne] at h
  exact h

theorem Leaves.then {code code' : List Instr} {t u : ValType} (h : Leaves C code t)
    (h' : ∀ ts, CodeTyped C code' (t :: ts) (u :: ts)) : Leaves C (code ++ code') u :=
  fun ts => (h ts).append (h' ts)

variable {e l r : Expr}

/-- Negation leaves a value of the operand's type. -/
theorem leaves_negate (hn : e.ty = .int ∨ e.ty = .float)
    (he : Leaves C (expr (.ofSymbols Γ) e) e.ty.valType) (line : Nat) :
    Leaves C (expr (.ofSymbols Γ) (.unary .negate e e.ty line)) e.ty.valType := by
  intro ts
  rw [expr]
  rcases hn with hty | hty
  · rw [hty] at he ⊢
    exact .cons (.const (.int 0)) ((he (.i32 :: ts)).append ((InstrTyped.int .sub).code ts))
  · rw [hty] at he ⊢
    exact (he ts).append (InstrTyped.floatNeg.code ts)

/-- Denial leaves a word. -/
theorem leaves_not (he : Leaves C (expr (.ofSymbols Γ) e) e.ty.valType) (ty : Ty) (line : Nat) :
    Leaves C (expr (.ofSymbols Γ) (.unary .not e ty line)) .i32 := by
  rw [expr]
  refine he.then fun ts => ?_
  split
  · rename_i hty
    rw [hty]
    exact codeTyped_zero_float ts .eq
  · rename_i hty
    rw [Ty.valType_of_ne_float hty]
    exact InstrTyped.eqz.code ts

/-- Going through a pointer leaves a value of its base. -/
theorem leaves_deref (hm : C.memory = true) {base : Ty} (hb : e.ty.base? = some base)
    (he : Leaves C (expr (.ofSymbols Γ) e) e.ty.valType) (ty : Ty) (line : Nat) :
    Leaves C (expr (.ofSymbols Γ) (.unary .deref e ty line)) base.valType := by
  have hptr : e.ty.valType = .i32 := by
    cases hty : e.ty with
    | float =>
      rw [hty] at hb
      cases hb
    | _ => rfl
  rw [expr, hb]
  rw [hptr] at he
  exact he.then fun ts => codeTyped_loadFrom ts hm base

/-- Arithmetic on expressions leaves a value of its type. -/
theorem leaves_arith {op : ArithOp} {t : Ty} (h : ArithTyped op l.ty r.ty t)
    (hl : Leaves C (expr (.ofSymbols Γ) l) l.ty.valType)
    (hr : Leaves C (expr (.ofSymbols Γ) r) r.ty.valType) (ty : Ty) (line : Nat) :
    Leaves C (expr (.ofSymbols Γ) (.binary (.arith op) l r ty line)) t.valType := by
  intro ts
  rw [expr]
  exact ((((hl ts).append (codeTyped_afterLeft ts h)).append (hr _)).append
    (codeTyped_afterRight _ h)).append (codeTyped_arithmetic ts h)

/-- Logic leaves a word. -/
theorem leaves_logical {op : LogicOp} (hl : Leaves C (expr (.ofSymbols Γ) l) l.ty.valType)
    (hr : Leaves C (expr (.ofSymbols Γ) r) r.ty.valType) (ty : Ty) (line : Nat) :
    Leaves C (expr (.ofSymbols Γ) (.binary (.logical op) l r ty line)) .i32 := by
  have hl := hl.then fun ts => codeTyped_toTruth ts l
  have hr := hr.then fun ts => codeTyped_toTruth ts r
  have hconst : ∀ n : Int32, CodeTyped C [.const (.int n)] [] [.i32] :=
    fun n => (InstrTyped.const (.int n)).code []
  cases op with
  | and =>
    rw [expr]
    exact hl.then fun ts => (InstrTyped.ifValue (hr []) (hconst 0)).code ts
  | or =>
    rw [expr]
    exact hl.then fun ts => (InstrTyped.ifValue (hconst 1) (hr [])).code ts

mutual

/-- **The code of an expression is valid**, and leaves a value if there is
one. -/
theorem codeTyped_expr (hC : Agrees Γ U C) (hm : C.memory = true) {e : Expr} {t : Ty}
    (h : HasTy Γ U e t) (hd : t.Decays e.ty) (ts : List ValType) :
    CodeTyped C (expr (.ofSymbols Γ) e) ts (t.result?.toList ++ ts) := by
  cases h with
  | @literal value ty line =>
    cases value with
    | int n =>
      rw [expr]
      exact (InstrTyped.const (.int n)).code ts
    | float x =>
      rw [expr]
      exact (InstrTyped.const (.float x)).code ts
  | var hv hu hne =>
    rw [expr, toList_result? hne]
    exact (instrTyped_get hC hv hu).code ts
  | @call f sym args ty line hf hargs =>
    -- the arguments lie in reverse on the stack, as a call takes them
    have hname : (Env.ofSymbols Γ).funcName f = sym.name := Eval.nameOf_eq hf
    rw [expr, hname]
    exact (codeTyped_exprs hC hm hargs ts).append ((InstrTyped.call (hC.funcTy hf)).code ts)
  | @negate e ty line he hn =>
    have hty : ty = e.ty := hd.eq_of_number hn
    have hne := Ty.ne_void_of_number hn
    rw [hty, toList_result? hne]
    exact leaves_negate hn (leaves_of_ne_void hne (codeTyped_expr hC hm he (.refl _))) line ts
  | not he hs =>
    have hne := Ty.ne_void_of_isScalar hs
    exact leaves_not (leaves_of_ne_void hne (codeTyped_expr hC hm he (.refl _))) _ _ ts
  | deref he hb hne =>
    have hne' := Ty.ne_void_of_base? hb
    rw [toList_result? hne]
    exact leaves_deref hm hb (leaves_of_ne_void hne' (codeTyped_expr hC hm he (.refl _))) _ _ ts
  | addressOfVar hv ha =>
    -- an array is its own address
    cases hv with
    | var hv hu hne =>
      have hget := (instrTyped_get hC hv hu).code ts
      rw [Ty.valType_of_isArray ha] at hget
      simp only [expr]
      exact hget
  | addressOfDeref he =>
    cases he with
    | deref he hb hne =>
      rw [expr]
      exact codeTyped_expr hC hm he (.refl _) ts
  | cast he hc =>
    have hne := Typing.ne_void_of_castable hc
    rw [expr, toList_result? hne.2]
    exact (leaves_of_ne_void hne.1 (codeTyped_expr hC hm he (.refl _))).then
      (fun ts => codeTyped_convert ts hc) ts
  | assign hv ha hr hd' hty =>
    cases hv with
    | var hv hu hne =>
      have hvalue := codeTyped_expr hC hm hr (hty ▸ hd') ts
      rw [hd'.result?_eq, toList_result? hne] at hvalue
      rw [expr]
      exact hvalue.append ((instrTyped_set hC hv hu fun _ => ha).code ts)
  | arith hl hr hop =>
    have hne := hop.ne_void
    rw [toList_result? hne.2.2]
    exact leaves_arith hop (leaves_of_ne_void hne.1 (codeTyped_expr hC hm hl (.refl _)))
      (leaves_of_ne_void hne.2.1 (codeTyped_expr hC hm hr (.refl _))) _ _ ts
  | compare hl hr hop =>
    have hne := hop.ne_void
    have hl := leaves_of_ne_void hne.1 (codeTyped_expr hC hm hl (.refl _))
    have hr := leaves_of_ne_void hne.2 (codeTyped_expr hC hm hr (.refl _))
    rw [expr]
    exact ((hl ts).append (hr _)).append (codeTyped_comparison ts hop)
  | bitwise hl hr hop =>
    -- both operands are integers, so the stack is known outright
    have hl := codeTyped_expr hC hm hl (.refl _) ts
    have hr := codeTyped_expr hC hm hr (.refl _) (.i32 :: ts)
    rw [hop.1] at hl
    rw [hop.2] at hr
    rw [expr]
    exact (hl.append hr).append ((InstrTyped.int _).code ts)
  | logical hl hr hs =>
    exact leaves_logical
      (leaves_of_ne_void (Ty.ne_void_of_isScalar hs.1) (codeTyped_expr hC hm hl (.refl _)))
      (leaves_of_ne_void (Ty.ne_void_of_isScalar hs.2) (codeTyped_expr hC hm hr (.refl _)))
      _ _ ts

/-- The code of arguments leaves their values, the last one on top. -/
theorem codeTyped_exprs (hC : Agrees Γ U C) (hm : C.memory = true) {es : List Expr}
    {tys : List Ty} (h : HaveTys Γ U es tys) (ts : List ValType) :
    CodeTyped C (exprs (.ofSymbols Γ) es) ts ((tys.map Ty.valType).reverse ++ ts) := by
  cases h with
  | nil =>
    rw [exprs]
    exact .nil
  | cons he hd hty hne hes =>
    have he := codeTyped_expr hC hm he (hty ▸ hd) ts
    rw [hd.result?_eq, toList_result? hne] at he
    rw [exprs, List.map_cons, List.reverse_cons, List.append_assoc]
    exact he.append (codeTyped_exprs hC hm hes _)

end

end Exprs

end MiniC.Lower
