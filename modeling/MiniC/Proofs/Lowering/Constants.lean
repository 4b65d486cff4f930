/-
  MiniC.Proofs.Lowering.Constants

  **The constant of an expression is the value that its code leaves.**

  A global variable starts with a constant, which the compiler computes itself;
  the machine computes the same expression by running its code.  The two agree
  on sign changes and casts, nested in any order:

    • `isSome_constant?_iff`: which expressions have a constant,
    • `run_constant`: their code leaves the constant or traps, whatever the
      machine knows of names,
    • `init_global`: the constant is what the global starts with.

  A trap is a float without an integer: the machine has no value there, and the
  compiler takes the nearest integer.
-/
import MiniC.Proofs.Lowering.Exprs

namespace MiniC

open Exec Wasm

/-! ## §1. Constant expressions -/

namespace Literal

/-- The constant with the other sign. -/
def negate : Literal → Literal
  | .int n => .int (-n)
  | .float x => .float x.neg

/-- The constant as one of type `ty`: a number is converted, and nothing is
done for a pointer. -/
def castTo (ty : Ty) : Literal → Literal
  | .int n => if ty = .float then .float (.ofInt32 n) else .int n
  | .float x => if ty = .int then .int x.toInt32 else .float x

/-- The constant as a value on the stack. -/
def value : Literal → Value
  | .int n => ⟨.i32, n.toBitVec⟩
  | .float x => ⟨.f32, x.bits.toBitVec⟩

end Literal

/-- Made of constants, sign changes and casts, and of nothing else. -/
inductive Expr.OfConstants : Expr → Prop where
  | literal (value : Literal) (ty : Ty) (line : Nat) : OfConstants (.literal value ty line)
  | negate {e : Expr} {ty : Ty} {line : Nat} (h : e.OfConstants) :
      OfConstants (.unary .negate e ty line)
  | cast {e : Expr} {ty : Ty} {line : Nat} (h : e.OfConstants) :
      OfConstants (.unary .cast e ty line)

namespace Expr

theorem constant?_negate (e : Expr) (ty : Ty) (line : Nat) :
    (Expr.unary .negate e ty line).constant? = e.constant?.map Literal.negate := by
  rw [constant?]
  rcases e.constant? with _ | ⟨n | x⟩ <;> rfl

theorem constant?_cast (e : Expr) (ty : Ty) (line : Nat) :
    (Expr.unary .cast e ty line).constant? = e.constant?.map (Literal.castTo ty) := by
  rcases h : e.constant? with _ | ⟨n | x⟩ <;> cases ty <;> simp [constant?, Literal.castTo, h]

/-- An expression made of constants has one. -/
theorem isSome_constant? {e : Expr} (h : e.OfConstants) : e.constant?.isSome = true := by
  induction h with
  | literal value ty line => rfl
  | negate _ ih => rwa [constant?_negate, Option.isSome_map]
  | cast _ ih => rwa [constant?_cast, Option.isSome_map]

/-- An expression with a constant is made of constants. -/
theorem ofConstants : (e : Expr) → e.constant?.isSome = true → e.OfConstants
  | .literal value ty line, _ => .literal value ty line
  | .unary .negate e ty line, h => by
    rw [constant?_negate, Option.isSome_map] at h
    exact .negate (ofConstants e h)
  | .unary .cast e ty line, h => by
    rw [constant?_cast, Option.isSome_map] at h
    exact .cast (ofConstants e h)
  | .unary .not .., h => by cases h
  | .unary .addressOf .., h => by cases h
  | .unary .deref .., h => by cases h
  | .var .., h => by cases h
  | .call .., h => by cases h
  | .binary .., h => by cases h

/-- **An expression has a constant exactly if it is made of constants.** -/
theorem isSome_constant?_iff (e : Expr) : e.constant?.isSome = true ↔ e.OfConstants :=
  ⟨ofConstants e, isSome_constant?⟩

end Expr

/-! ## §2. Code that leaves a value -/

/-- The machine changes the sign of floats and converts integers to floats as
the compiler does, and where it converts a float to an integer at all, the
compiler gets the same integer. -/
structure Exec.FloatUnit.Folds (F : FloatUnit) : Prop where
  neg : ∀ x : Binary32, F.neg x.bits.toBitVec = x.neg.bits.toBitVec
  ofInt : ∀ n : Int32, F.ofInt n.toBitVec = (Binary32.ofInt32 n).bits.toBitVec
  toInt? : ∀ (x : Binary32) {w : Word}, F.toInt? x.bits.toBitVec = some w →
    w = x.toInt32.toBitVec

/-- Only a number is cast to a float. -/
theorem Typing.eq_of_castable_float {s : Ty} (h : Typing.castable s .float = true) :
    s = .int ∨ s = .float := by
  cases s with
  | int => exact .inl rfl
  | float => exact .inr rfl
  | _ => cases h

/-- A float is only cast to a number. -/
theorem Typing.eq_of_float_castable {t : Ty} (h : Typing.castable .float t = true) :
    t = .int ∨ t = .float := by
  cases t with
  | int => exact .inl rfl
  | float => exact .inr rfl
  | _ => cases h

namespace Lower

section Constants

variable {C : Context} {F : FloatUnit} {call : String → List Word → Store → Option Reply}
  {env : Env} {Γ : Symbols} {U : VarId → Prop}

/-- Code pushes `v` or traps, and changes nothing else. -/
def PushesOrTraps (C : Context) (F : FloatUnit) (call : String → List Word → Store → Option Reply)
    (code : List Instr) (v : Value) : Prop :=
  ∀ vs st, execAll C F call code vs st = .next (v :: vs) st ∨
    execAll C F call code vs st = .trap st.store

/-- Further code works on the value that was left. -/
theorem PushesOrTraps.append {code code' : List Instr} {v v' : Value}
    (h : PushesOrTraps C F call code v)
    (h' : ∀ vs st, execAll C F call code' (v :: vs) st = .next (v' :: vs) st ∨
      execAll C F call code' (v :: vs) st = .trap st.store) :
    PushesOrTraps C F call (code ++ code') v' := by
  intro vs st
  rw [execAll_append]
  rcases h vs st with hnext | htrap
  · rw [hnext]
    exact h' vs st
  · rw [htrap]
    exact .inr rfl

/-- The sign of an integer changes by a difference from zero. -/
theorem PushesOrTraps.negateInt {code : List Instr} {n : Int32}
    (h : PushesOrTraps C F call code (Literal.int n).value) :
    PushesOrTraps C F call (.const (.int 0) :: (code ++ [.int .sub])) (Literal.int (-n)).value := by
  intro vs st
  have hneg : (-n).toBitVec = 0 - n.toBitVec := (BitVec.zero_sub _).symm
  have hsub : execAll C F call [.int .sub] ((Literal.int n).value :: (Const.int 0).value :: vs) st =
      .next ((Literal.int (-n)).value :: vs) st := by
    rw [execAll_singleton, Literal.value, Literal.value, hneg]
    exact exec_int .sub 0 n.toBitVec vs st
  rw [execAll_cons, exec_const, Flow.andThen, execAll_append]
  rcases h ((Const.int 0).value :: vs) st with hnext | htrap
  · rw [hnext]
    exact .inl hsub
  · rw [htrap]
    exact .inr rfl

/-- Nothing is emitted for a cast that converts no number. -/
theorem convert_eq_nil {s t : Ty} (hs : s = .float → t = .float) (ht : t = .float → s = .float) :
    convert s t = [] := by
  unfold convert
  split
  · exact absurd (ht rfl) Ty.noConfusion
  · exact absurd (hs rfl) Ty.noConfusion
  · rfl

/-- The code of a cast does to the value what the compiler does to the
constant. -/
theorem PushesOrTraps.cast (hF : F.Folds) {code : List Instr} {c : Literal} {s t : Ty}
    (h : PushesOrTraps C F call code c.value) (hkind : c.ty = .float ↔ s = .float)
    (hcast : Typing.castable s t = true) :
    PushesOrTraps C F call (code ++ convert s t) (c.castTo t).value := by
  cases c with
  | int n =>
    have hs : s ≠ .float := fun hs => absurd (hkind.2 hs) Ty.noConfusion
    by_cases ht : t = .float
    · subst ht
      rcases Typing.eq_of_castable_float hcast with rfl | rfl
      · refine h.append fun vs st => .inl ?_
        have hvalue : (Literal.float (.ofInt32 n)).value = ⟨.f32, F.ofInt n.toBitVec⟩ := by
          rw [Literal.value, hF.ofInt]
        rw [Literal.castTo, if_pos rfl, hvalue]
        exact (execAll_singleton _ _ _).trans (exec_convert _ _ _)
      · exact absurd rfl hs
    · rw [convert_eq_nil (fun hf => absurd hf hs) (fun hf => absurd hf ht), List.append_nil,
        Literal.castTo, if_neg ht]
      exact h
  | float x =>
    have hs : s = .float := hkind.1 rfl
    subst hs
    rcases Typing.eq_of_float_castable hcast with rfl | rfl
    · -- the only cast that may trap
      refine h.append fun vs st => ?_
      have hrun : execAll C F call (convert .float .int) ((Literal.float x).value :: vs) st =
          (Eval.Result.orTrap (F.toInt? x.bits.toBitVec) st).flow (push .i32) vs :=
        (execAll_singleton _ _ _).trans (exec_truncate _ _ _)
      rw [hrun]
      cases hw : F.toInt? x.bits.toBitVec with
      | none => exact .inr rfl
      | some w =>
        left
        rw [Literal.castTo, if_pos rfl, Literal.value, ← hF.toInt? x hw]
        rfl
    · rw [convert_eq_nil (fun _ => rfl) (fun _ => rfl), List.append_nil]
      exact h

/-- **The code of an expression made of constants leaves its constant**, or
traps. -/
theorem run_constant (hF : F.Folds) {e : Expr} (hc : e.OfConstants) {t : Ty} {c : Literal}
    (he : HasTy Γ U e t) (hd : t.Decays e.ty) (hfold : e.constant? = some c) :
    PushesOrTraps C F call (expr env e) c.value := by
  induction hc generalizing t c with
  | literal value ty line =>
    cases hfold
    intro vs st
    cases value <;> exact .inl rfl
  | @negate a ty line _ ih =>
    rw [Expr.constant?_negate] at hfold
    obtain ⟨c, hc, rfl⟩ := Option.map_eq_some_iff.1 hfold
    cases he with
    | negate ha hn =>
      have hkind := ty_eq_float_of_constant? a ha hc
      have hty : ty = a.ty := hd.eq_of_number hn
      have hcode := ih ha (.refl _) hc
      rw [expr, hty]
      cases c with
      | int n =>
        rw [if_neg fun hf => absurd (hkind.2 hf) Ty.noConfusion]
        exact hcode.negateInt
      | float x =>
        rw [if_pos (hkind.1 rfl)]
        refine hcode.append fun vs st => .inl ?_
        have hvalue : (Literal.float x.neg).value = ⟨.f32, F.neg x.bits.toBitVec⟩ := by
          rw [Literal.value, hF.neg]
        rw [Literal.negate, hvalue]
        exact (execAll_singleton _ _ _).trans (exec_floatNeg _ _ _)
  | @cast a ty line _ ih =>
    rw [Expr.constant?_cast] at hfold
    obtain ⟨c, hc, rfl⟩ := Option.map_eq_some_iff.1 hfold
    cases he with
    | cast ha hcast =>
      rw [expr]
      exact (ih ha (.refl _) hc).cast hF (ty_eq_float_of_constant? a ha hc) hcast

/-! ## §3. Globals -/

/-- A global that is no array starts with its constant. -/
theorem init_global {v : VarId} (hv : env.address? v = none) (c : Literal) :
    (global env v (some c)).init.value = c.value := by
  unfold global
  rw [hv]
  cases c <;> rfl

end Constants

/-- **Global initializers fold to what their code computes.**  A well-typed
expression with a value has a constant exactly if it is made of constants, sign
changes and casts.  The constant is a float exactly if the expression is one.
Wherever its code is run, unless the run traps it ends with the constant on top of
the stack and everything else as it was; and with that value starts a global that
the constant is given to. -/
theorem constant_eq_run {Γ : Symbols} {U : VarId → Prop} {e : Expr} (he : WholeTyped Γ U e) :
    (e.constant?.isSome = true ↔ e.OfConstants) ∧
      ∀ c, e.constant? = some c →
        (c.ty = .float ↔ e.ty = .float) ∧
        c.value.ty = e.ty.valType ∧
        (∀ F : FloatUnit, F.Folds → ∀ env C call vs st,
          (∀ s, execAll C F call (expr env e) vs st ≠ .trap s) →
          execAll C F call (expr env e) vs st = .next (c.value :: vs) st) ∧
        ∀ env v, Env.address? env v = none →
          (global env v (some c)).init.value = c.value := by
  obtain ⟨t, ht, hd⟩ := he
  refine ⟨e.isSome_constant?_iff, fun c hc => ?_⟩
  have hkind := (ty_eq_float_of_constant? e ht hc).trans hd.eq_float_iff
  refine ⟨hkind, ?_, ?_, fun env v hv => init_global hv c⟩
  · cases c with
    | int n => exact (Ty.valType_of_ne_float fun hf => absurd (hkind.2 hf) Ty.noConfusion).symm
    | float x => rw [hkind.1 rfl]; rfl
  · intro F hF env C call vs st htrap
    have hconst := e.isSome_constant?_iff.1 (Option.isSome_iff_exists.2 ⟨c, hc⟩)
    rcases run_constant hF hconst ht hd hc vs st with hnext | htrapped
    · exact hnext
    · exact absurd htrapped (htrap st.store)

/-- The integer toward zero, if it is one of 32 bits. -/
def exactInt32? (x : Binary32) : Option Int32 :=
  let limit := if x.negative then 0x80000000 else 0x7FFFFFFF
  if x.isNaN || limit < x.truncated then none else some x.toInt32

/-- Floats that change sign and convert as the compiler does, and have no
integer where it would take the nearest one. -/
def exactFloats : FloatUnit :=
  { sampleFloats with
    neg := fun w => (Binary32.mk ⟨w⟩).neg.bits.toBitVec
    ofInt := fun w => (Binary32.ofInt32 ⟨⟨w⟩⟩).bits.toBitVec
    toInt? := fun w => (exactInt32? ⟨⟨w⟩⟩).map Int32.toBitVec }

/-- Exact arithmetic folds as the compiler does. -/
theorem folds_exactFloats : exactFloats.Folds where
  neg _ := rfl
  ofInt _ := rfl
  toInt? x w h := by
    obtain ⟨n, hn, rfl⟩ := Option.map_eq_some_iff.1 h
    have hvalue := (Option.ite_none_left_eq_some.1 hn).2
    rw [← Option.some.inj hvalue]

/-- The pointer `(int*)-(int)-2.5`. -/
def samplePointer : Expr :=
  let half : Expr := .literal (.float ⟨0x40200000⟩) .float 1
  .unary .cast (.unary .negate (.unary .cast (.unary .negate half .float 1) .int 1) .int 1)
    (.pointer .int) 1

theorem typed_samplePointer : WholeTyped {} (fun _ => False) samplePointer :=
  ⟨.pointer .int, .cast (.negate (.cast (.negate .literal (.inr rfl)) rfl) (.inl rfl)) rfl, .refl _⟩

/-- The pointer is two, by the compiler and by the machine. -/
theorem constant_eq_run_pointer :
    WholeTyped {} (fun _ => False) samplePointer ∧ exactFloats.Folds ∧
      samplePointer.constant? = some (.int 2) ∧
      execAll ((program sampleProgram).context
          (function (.ofSymbols sampleProgram.symbols) sampleFunction)) exactFloats
          (fun _ _ _ => none) (expr (.ofSymbols {}) samplePointer) [⟨.f32, 7⟩] sampleState =
        .next [⟨.i32, 2⟩, ⟨.f32, 7⟩] sampleState := by
  have hfold : samplePointer.constant? = some (.int 2) := by decide +kernel
  refine ⟨typed_samplePointer, folds_exactFloats, hfold, ?_⟩
  have hrun := ((constant_eq_run typed_samplePointer).2 _ hfold).2.2.1
  refine hrun exactFloats folds_exactFloats _ _ _ _ _ ?_
  intro s htrap
  cases htrap

end Lower

end MiniC
