/-
  MiniC.Proofs.Lowering.Operators

  The instructions for an operator compute what the operator means.

  A result of evaluation is seen on the machine as a flow: its value is pushed
  on the stack that was there (`flow`).  One lemma, `flow_andThen`, says how
  the code that follows a result goes on; all code for operators and
  expressions is taken apart by it.

  Integers are computed exactly and then wrapped in the tree, and by 32-bit
  instructions on the machine; the words of both agree.
-/
import Mathlib.Algebra.Group.Nat.Defs
import MiniC.Lower.Exprs
import MiniC.Proofs.Execution.Machine
import MiniC.Proofs.Execution.Tree
import MiniC.Proofs.Typing.Judgement

namespace MiniC

open Exec Wasm

/-! ## §1. Words -/

namespace Exec

theorem ofInt_toNat (a : Word) : BitVec.ofInt 32 (a.toNat : Int) = a := by
  rw [BitVec.ofInt_natCast, BitVec.ofNat_toNat, BitVec.setWidth_eq]

theorem ofInt_sub (x y : Int) : BitVec.ofInt 32 (x - y) = .ofInt 32 x - .ofInt 32 y := by
  rw [Int.sub_eq_add_neg, BitVec.ofInt_add, BitVec.ofInt_neg, BitVec.sub_eq_add_neg]

/-- A word that is zero or one is one exactly if it is not zero. -/
theorem truth_ne_zero (b : Bool) : (truth b ≠ 0) ↔ b = true := by
  cases b <;> decide

theorem truth_truth (b : Bool) : truth (decide (truth b ≠ 0)) = truth b := by
  cases b <;> rfl

end Exec

/-- Division of words is division of the numbers they stand for. -/
theorem Wasm.divide_eq_quotient (a b : Word) :
    divide a b = Eval.quotient a.toInt b.toInt := by
  have hzero : b.toInt = 0 ↔ b = 0 := by
    rw [← BitVec.toInt_inj]
    exact Iff.rfl
  have hmin : a.toInt = -0x80000000 ↔ a = BitVec.intMin 32 := by
    rw [← BitVec.toInt_inj]
    exact Iff.rfl
  have hone : b.toInt = -1 ↔ b = -1 := by
    rw [← BitVec.toInt_inj]
    exact Iff.rfl
  have hquot : a.sdiv b = .ofInt 32 (a.toInt.tdiv b.toInt) := by
    apply BitVec.eq_of_toInt_eq
    rw [BitVec.toInt_sdiv, BitVec.toInt_ofInt]
  unfold divide Eval.quotient
  rw [hquot]
  simp only [hzero, hmin, hone]

namespace Lower

/-- Arithmetic of words is arithmetic of the numbers they stand for. -/
theorem eval_intArith (op : ArithOp) (a b : Word) :
    (intArith op).eval a b = Eval.intArith op a.toInt b.toInt := by
  cases op with
  | add =>
    show some (a + b) = some (BitVec.ofInt 32 (a.toInt + b.toInt))
    rw [BitVec.ofInt_add, BitVec.ofInt_toInt, BitVec.ofInt_toInt]
  | sub =>
    show some (a - b) = some (BitVec.ofInt 32 (a.toInt - b.toInt))
    rw [ofInt_sub, BitVec.ofInt_toInt, BitVec.ofInt_toInt]
  | mul =>
    show some (a * b) = some (BitVec.ofInt 32 (a.toInt * b.toInt))
    rw [BitVec.ofInt_mul, BitVec.ofInt_toInt, BitVec.ofInt_toInt]
  | div => exact divide_eq_quotient a b

/-- Words are ordered as the signed or unsigned numbers that they stand for. -/
theorem eval_intCompare (op : CompareOp) (signed : Bool) (a b : Word) :
    (intCompare signed op).eval a b = some (truth
      (if signed then Eval.compareInt op a.toInt b.toInt
        else Eval.compareInt op a.toNat b.toNat)) := by
  have hnat : ((a.toNat : Int) = b.toNat) ↔ a = b := Int.ofNat_inj.trans BitVec.toNat_inj
  cases op <;> cases signed <;>
    simp only [intCompare, IntOp.eval, Eval.compareInt, BitVec.slt_eq_decide, BitVec.sle_eq_decide,
      BitVec.ule_eq_decide, BitVec.ult_eq_decide, ne_eq,
      BitVec.toInt_inj, hnat, gt_iff_lt, ge_iff_le, Int.ofNat_lt, Int.ofNat_le, if_true, if_false,
      Bool.false_eq_true]

theorem eval_floatArith (F : FloatUnit) (op : ArithOp) (a b : Word) :
    (floatArith op).eval F a b = ⟨.f32, Eval.floatArith F op a b⟩ := by
  cases op <;> rfl

theorem eval_floatCompare (F : FloatUnit) (op : CompareOp) (a b : Word) :
    (floatCompare op).eval F a b = ⟨.i32, truth (Eval.compareFloat F op a b)⟩ := by
  cases op <;> rfl

theorem eval_bitwise (op : BitOp) (a b : Word) :
    (bitwise op).eval a b = some (Eval.bitwise op a b) := by
  cases op <;> rfl

end Lower

/-! ## §2. Types of values -/

namespace Ty

variable {ty t u : Ty}

@[simp]
theorem isPointerLike_int : Ty.int.isPointerLike = false := rfl

@[simp]
theorem isPointerLike_float : Ty.float.isPointerLike = false := rfl

/-- Elements are never of size zero. -/
theorem stride_pos (ty : Ty) : 0 < ty.stride := by
  unfold stride
  split
  · exact Nat.lt_of_lt_of_le Nat.one_pos (Nat.le_max_right _ _)
  · exact Nat.one_pos

theorem result?_of_ne_void (h : ty ≠ .void) : ty.result? = some ty.valType := by
  rw [result?, if_neg h]

theorem valType_of_isPointerLike (h : ty.isPointerLike = true) : ty.valType = .i32 := by
  cases ty with
  | pointer base => rfl
  | array base n => rfl
  | _ => cases h

theorem valType_of_ne_float (h : ty ≠ .float) : ty.valType = .i32 := by
  cases ty with
  | float => exact absurd rfl h
  | _ => rfl

theorem valType_of_isArray (h : ty.isArray = true) : ty.valType = .i32 := by
  cases ty with
  | array base n => rfl
  | _ => cases h

theorem ne_float_of_isPointerLike (h : ty.isPointerLike = true) : ty ≠ .float := by
  rintro rfl
  cases h

theorem Decays.result?_eq (h : t.Decays u) : t.result? = u.result? := by
  cases h <;> rfl

/-- Only an array decays. -/
theorem Decays.eq_of_not_isArray (h : t.Decays u) (ht : t.isArray = false) : u = t := by
  cases h with
  | refl => rfl
  | array base n => cases ht

theorem Decays.eq_of_number (h : t.Decays u) (ht : t = .int ∨ t = .float) : u = t := by
  rcases ht with rfl | rfl <;> exact h.eq_of_not_isArray rfl

theorem ne_void_of_number (ht : t = .int ∨ t = .float) : t ≠ .void := by
  rcases ht with rfl | rfl <;> exact Ty.noConfusion

end Ty

/-! ## §3. Running code -/

section Machine

variable {C : Context} {F : FloatUnit} {call : String → List Word → Store → Option Reply}

@[simp]
theorem Wasm.pop_cons (t : ValType) (w : Word) (vs : List Value) (k : Word → List Value → Flow) :
    pop t (⟨t, w⟩ :: vs) k = k w vs :=
  if_pos rfl

@[simp]
theorem Wasm.execAll_nil (vs : List Value) (st : State) :
    execAll C F call [] vs st = .next vs st :=
  rfl

theorem Wasm.execAll_cons (i : Instr) (is : List Instr) (vs : List Value) (st : State) :
    execAll C F call (i :: is) vs st = (exec C F call i vs st).andThen (execAll C F call is) :=
  rfl

theorem Wasm.Flow.andThen_andThen (flow : Flow) (k k' : List Value → State → Flow) :
    (flow.andThen k).andThen k' = flow.andThen fun vs st => (k vs st).andThen k' := by
  cases flow <;> rfl

/-- Code of one instruction is that instruction. -/
@[simp]
theorem Wasm.execAll_singleton (i : Instr) (vs : List Value) (st : State) :
    execAll C F call [i] vs st = exec C F call i vs st := by
  rw [execAll_cons]
  cases exec C F call i vs st with
  | next vs st =>
    show execAll C F call [] vs st = _
    exact execAll_nil vs st
  | _ => rfl

/-- Code after code. -/
theorem Wasm.execAll_append (is js : List Instr) (vs : List Value) (st : State) :
    execAll C F call (is ++ js) vs st = (execAll C F call is vs st).andThen
      (execAll C F call js) := by
  induction is generalizing vs st with
  | nil => rw [List.nil_append, execAll_nil, Flow.andThen]
  | cons i is ih =>
    rw [List.cons_append, execAll_cons, execAll_cons, Flow.andThen_andThen]
    congr 1
    funext vs st
    exact ih vs st

end Machine

namespace Eval.Result

variable {α β γ : Type}

theorem andThen_andThen (r : Result α) (k : α → State → Result β) (k' : β → State → Result γ) :
    (r.andThen k).andThen k' = r.andThen fun a st => (k a st).andThen k' := by
  cases r <;> rfl

/-- Both steps have a value. -/
theorem andThen_eq_value {r : Result α} {k : α → State → Result β} {b : β} {st : State}
    (h : r.andThen k = .value b st) : ∃ a st', r = .value a st' ∧ k a st' = .value b st := by
  cases r with
  | value a st' => exact ⟨a, st', rfl, h⟩
  | trap s => cases h
  | exhausted s => cases h

/-- A result as the machine shows it, on top of the stack `vs`. -/
def flow (push : α → List Value → List Value) (vs : List Value) : Result α → Flow
  | .value a st => .next (push a vs) st
  | .trap s => .trap s
  | .exhausted s => .exhausted s

/-- **Going on after a result**: if the code that follows shows what is done
with the value, then the whole shows the whole. -/
theorem flow_andThen {push : α → List Value → List Value}
    {push' : β → List Value → List Value} {vs vs' : List Value} {r : Result α}
    {f : α → State → Result β} {k : List Value → State → Flow}
    (h : ∀ a st, r = .value a st → k (push a vs) st = (f a st).flow push' vs') :
    (r.flow push vs).andThen k = (r.andThen f).flow push' vs' := by
  cases r with
  | value a st => exact h a st rfl
  | trap s => rfl
  | exhausted s => rfl

end Eval.Result

/-- Pushes one value of a type. -/
def Wasm.push (t : ValType) (w : Word) (vs : List Value) : List Value := ⟨t, w⟩ :: vs

namespace Lower

section Operators

variable {C : Context} {F : FloatUnit} {call : String → List Word → Store → Option Reply}

/-! ## §4. Instructions -/

theorem exec_const (c : Const) (vs : List Value) (st : State) :
    exec C F call (.const c) vs st = .next (c.value :: vs) st :=
  rfl

/-- An integer operator takes two words and leaves one, or traps. -/
theorem exec_int (op : IntOp) (a b : Word) (vs : List Value) (st : State) :
    exec C F call (.int op) (⟨.i32, b⟩ :: ⟨.i32, a⟩ :: vs) st =
      (Eval.Result.orTrap (op.eval a b) st).flow (push .i32) vs := by
  rw [exec, pop_cons, pop_cons]
  cases op.eval a b <;> rfl

theorem exec_float (op : FloatOp) (a b : Word) (vs : List Value) (st : State) :
    exec C F call (.float op) (⟨.f32, b⟩ :: ⟨.f32, a⟩ :: vs) st =
      .next (op.eval F a b :: vs) st :=
  rfl

theorem exec_eqz (w : Word) (vs : List Value) (st : State) :
    exec C F call .eqz (⟨.i32, w⟩ :: vs) st = .next (⟨.i32, truth (w = 0)⟩ :: vs) st :=
  rfl

/-- A load leaves what memory holds, or traps. -/
theorem exec_load (t : ValType) (address : Word) (vs : List Value) (st : State) :
    exec C F call (.load t) (⟨.i32, address⟩ :: vs) st =
      (Eval.Result.orTrap (st.store.memory.load address) st).flow (push t) vs := by
  rw [exec, pop_cons]
  cases st.store.memory.load address <;> rfl

theorem exec_floatNeg (w : Word) (vs : List Value) (st : State) :
    exec C F call .floatNeg (⟨.f32, w⟩ :: vs) st = .next (⟨.f32, F.neg w⟩ :: vs) st :=
  rfl

theorem exec_convert (w : Word) (vs : List Value) (st : State) :
    exec C F call .convert (⟨.i32, w⟩ :: vs) st = .next (⟨.f32, F.ofInt w⟩ :: vs) st :=
  rfl

/-- A float becomes an integer, or traps. -/
theorem exec_truncate (w : Word) (vs : List Value) (st : State) :
    exec C F call .truncate (⟨.f32, w⟩ :: vs) st =
      (Eval.Result.orTrap (F.toInt? w) st).flow (push .i32) vs := by
  rw [exec, pop_cons]
  cases F.toInt? w <;> rfl

/-- A constant and an operator on it. -/
theorem exec_const_int (c : Const) (op : IntOp) (a b : Word) (hc : c.value = ⟨.i32, b⟩)
    (vs : List Value) (st : State) :
    execAll C F call [.const c, .int op] (⟨.i32, a⟩ :: vs) st =
      (Eval.Result.orTrap (op.eval a b) st).flow (push .i32) vs := by
  rw [execAll_cons, exec_const, Flow.andThen, execAll_singleton, hc, exec_int]

/-! ## §5. Arithmetic -/

/-- Scaling multiplies. -/
theorem exec_scale (stride : Nat) (w : Word) (vs : List Value) (st : State) :
    execAll C F call (scale stride) (⟨.i32, w⟩ :: vs) st =
      .next (⟨.i32, w * BitVec.ofNat 32 stride⟩ :: vs) st := by
  unfold scale
  split
  · rename_i h
    rw [h, execAll_nil, BitVec.mul_one]
  · rw [exec_const_int _ _ _ (BitVec.ofNat 32 stride) rfl]
    rfl

theorem quotient_one (w : Word) : Eval.quotient w.toInt 1 = some w := by
  rw [Eval.quotient, if_neg (by omega), Int.tdiv_one, BitVec.ofInt_toInt]

/-- Unscaling divides. -/
theorem exec_unscale (stride : Nat) (w : Word) (vs : List Value) (st : State) :
    execAll C F call (unscale stride) (⟨.i32, w⟩ :: vs) st =
      (Eval.Result.orTrap (Eval.quotient w.toInt (BitVec.ofNat 32 stride).toInt) st).flow
        (push .i32) vs := by
  unfold unscale
  split
  · rename_i h
    have hone : (BitVec.ofNat 32 1).toInt = 1 := rfl
    rw [h, execAll_nil, hone, quotient_one]
    rfl
  · rw [exec_const_int _ _ _ (BitVec.ofNat 32 stride) rfl, IntOp.eval, divide_eq_quotient]

/-- What the left operand is turned into before the right one is computed. -/
def scaledLeft (op : ArithOp) (l r : Ty) (a : Word) : Word :=
  if movesPointer op && r.isPointerLike && !l.isPointerLike then a * BitVec.ofNat 32 r.stride
  else a

/-- What the right operand is turned into before the operator is applied. -/
def scaledRight (op : ArithOp) (l r : Ty) (b : Word) : Word :=
  if movesPointer op && l.isPointerLike && !r.isPointerLike then b * BitVec.ofNat 32 l.stride
  else b

variable {op : ArithOp} {l r t : Ty}

/-- The left operand is scaled if it moves a pointer. -/
theorem exec_afterLeft (h : ArithTyped op l r t) (a : Word) (vs : List Value) (st : State) :
    execAll C F call (afterLeft op l r) (⟨l.valType, a⟩ :: vs) st =
      .next (⟨l.valType, scaledLeft op l r a⟩ :: vs) st := by
  unfold afterLeft scaledLeft
  split
  · rename_i hp
    simp only [Bool.and_eq_true, Bool.not_eq_true'] at hp
    rw [h.left_eq_int hp.1.2 hp.2]
    exact exec_scale _ _ _ _
  · exact execAll_nil _ _

/-- The right operand is scaled if it moves a pointer. -/
theorem exec_afterRight (h : ArithTyped op l r t) (b : Word) (vs : List Value) (st : State) :
    execAll C F call (afterRight op l r) (⟨r.valType, b⟩ :: vs) st =
      .next (⟨r.valType, scaledRight op l r b⟩ :: vs) st := by
  unfold afterRight scaledRight
  split
  · rename_i hp
    simp only [Bool.and_eq_true, Bool.not_eq_true'] at hp
    rw [h.right_eq_int hp.1.2 hp.2]
    exact exec_scale _ _ _ _
  · exact execAll_nil _ _

/-- A number of elements after an address. -/
theorem ofInt_add_scaled (a b : Word) (stride : Nat) :
    BitVec.ofInt 32 (a.toNat + b.toInt * stride) = a + b * BitVec.ofNat 32 stride := by
  rw [BitVec.ofInt_add, BitVec.ofInt_mul, ofInt_toNat, BitVec.ofInt_toInt, BitVec.ofInt_natCast]

/-- A number of elements before an address. -/
theorem ofInt_sub_scaled (a b : Word) (stride : Nat) :
    BitVec.ofInt 32 (a.toNat - b.toInt * stride) = a - b * BitVec.ofNat 32 stride := by
  rw [ofInt_sub, BitVec.ofInt_mul, ofInt_toNat, BitVec.ofInt_toInt, BitVec.ofInt_natCast]

theorem ofInt_scaled_add (a b : Word) (stride : Nat) :
    BitVec.ofInt 32 (a.toInt * stride + b.toNat) = a * BitVec.ofNat 32 stride + b := by
  rw [BitVec.ofInt_add, BitVec.ofInt_mul, ofInt_toNat, BitVec.ofInt_toInt, BitVec.ofInt_natCast]

/-- An integer added to a pointer. -/
theorem arith_pointer_add (hp : l.isPointerLike = true) (a b : Word) :
    Eval.arith F .add l .int a b = some (a + b * BitVec.ofNat 32 l.stride) := by
  simp [Eval.arith, hp, ofInt_add_scaled]

/-- An integer taken from a pointer. -/
theorem arith_pointer_sub (hp : l.isPointerLike = true) (a b : Word) :
    Eval.arith F .sub l .int a b = some (a - b * BitVec.ofNat 32 l.stride) := by
  simp [Eval.arith, hp, ofInt_sub_scaled]

/-- A pointer added to an integer. -/
theorem arith_add_pointer (hp : r.isPointerLike = true) (a b : Word) :
    Eval.arith F .add .int r a b = some (a * BitVec.ofNat 32 r.stride + b) := by
  simp [Eval.arith, hp, ofInt_scaled_add]

/-- The difference of two pointers. -/
theorem arith_difference (hp : l.isPointerLike = true) (hq : r.isPointerLike = true) (a b : Word) :
    Eval.arith F .sub l r a b =
      Eval.quotient (a - b).toInt (BitVec.ofNat 32 l.stride).toInt := by
  simp [Eval.arith, hp, hq, ofInt_sub]

/-- A size below 2 ^ 31 is the same number as a signed word. -/
theorem toInt_stride {stride : Nat} (hs : stride ≤ 0x7FFFFFFF) :
    (BitVec.ofNat 32 stride).toInt = stride := by
  rw [BitVec.toInt_ofNat']
  exact Int.bmod_eq_of_le (by omega) (by omega)

/-- The difference of two pointers to elements of such a size is divided by the
size itself. -/
theorem arith_difference_of_lt (hp : l.isPointerLike = true) (hq : r.isPointerLike = true)
    (hlt : l.stride < 2 ^ 31) (a b : Word) :
    Eval.arith F .sub l r a b = some (.ofInt 32 ((a - b).toInt.tdiv l.stride)) := by
  have hpos := l.stride_pos
  rw [arith_difference hp hq, toInt_stride (Nat.le_of_lt_succ hlt), Eval.quotient,
    if_neg (by omega)]

theorem valType_decay {p : Ty} (hp : p.isPointerLike = true) : p.decay.valType = .i32 := by
  cases p with
  | pointer base => rfl
  | array base n => rfl
  | _ => cases hp

/-- **The code of arithmetic computes what the operator means.** -/
theorem exec_arithmetic (h : ArithTyped op l r t) (a b : Word) (vs : List Value) (st : State) :
    execAll C F call (arithmetic op l r)
        (⟨r.valType, scaledRight op l r b⟩ :: ⟨l.valType, scaledLeft op l r a⟩ :: vs) st =
      (Eval.Result.orTrap (Eval.arith F op l r a b) st).flow (push t.valType) vs := by
  -- for each typing: the code, which operand is scaled, and what the operator means
  cases h with
  | int op =>
    have hcode : arithmetic op .int .int = [.int (intArith op)] := by
      simp [arithmetic]
    have hleft : scaledLeft op .int .int a = a := by simp [scaledLeft]
    have hright : scaledRight op .int .int b = b := by simp [scaledRight]
    have hmeans : Eval.arith F op .int .int a b = (intArith op).eval a b := by
      simp [Eval.arith, eval_intArith]
    rw [hcode, hleft, hright, hmeans, execAll_singleton]
    exact exec_int _ _ _ _ _
  | float op =>
    have hcode : arithmetic op .float .float = [.float (floatArith op)] := if_pos rfl
    have hleft : scaledLeft op .float .float a = a := by simp [scaledLeft]
    have hright : scaledRight op .float .float b = b := by simp [scaledRight]
    have hmeans : Eval.arith F op .float .float a b = some (Eval.floatArith F op a b) := by
      simp [Eval.arith]
    rw [hcode, hleft, hright, hmeans, execAll_singleton]
    exact (exec_float _ _ _ _ _).trans (by rw [eval_floatArith]; rfl)
  | pointerAdd hp =>
    have hcode : arithmetic .add l .int = [.int .add] := by
      simp [arithmetic, Ty.ne_float_of_isPointerLike hp, intArith]
    have hleft : scaledLeft .add l .int a = a := by simp [scaledLeft]
    have hright : scaledRight .add l .int b = b * BitVec.ofNat 32 l.stride := by
      simp [scaledRight, movesPointer, hp]
    rw [hcode, hleft, hright, arith_pointer_add hp, execAll_singleton,
      Ty.valType_of_isPointerLike hp, valType_decay hp]
    exact exec_int _ _ _ _ _
  | pointerSub hp =>
    have hcode : arithmetic .sub l .int = [.int .sub] := by
      simp [arithmetic, Ty.ne_float_of_isPointerLike hp, intArith]
    have hleft : scaledLeft .sub l .int a = a := by simp [scaledLeft]
    have hright : scaledRight .sub l .int b = b * BitVec.ofNat 32 l.stride := by
      simp [scaledRight, movesPointer, hp]
    rw [hcode, hleft, hright, arith_pointer_sub hp, execAll_singleton,
      Ty.valType_of_isPointerLike hp, valType_decay hp]
    exact exec_int _ _ _ _ _
  | addPointer hp =>
    have hcode : arithmetic .add .int r = [.int .add] := by
      simp [arithmetic, intArith]
    have hleft : scaledLeft .add .int r a = a * BitVec.ofNat 32 r.stride := by
      simp [scaledLeft, movesPointer, hp]
    have hright : scaledRight .add .int r b = b := by simp [scaledRight]
    rw [hcode, hleft, hright, arith_add_pointer hp, execAll_singleton,
      Ty.valType_of_isPointerLike hp, valType_decay hp]
    exact exec_int _ _ _ _ _
  | difference hp hq hd =>
    have hcode : arithmetic .sub l r = .int .sub :: unscale l.stride := by
      simp [arithmetic, Ty.ne_float_of_isPointerLike hp, intArith, hp, hq]
    have hleft : scaledLeft .sub l r a = a := by simp [scaledLeft, hp]
    have hright : scaledRight .sub l r b = b := by simp [scaledRight, hq]
    rw [hcode, hleft, hright, arith_difference hp hq, Ty.valType_of_isPointerLike hp,
      Ty.valType_of_isPointerLike hq, execAll_cons, exec_int]
    exact exec_unscale _ _ _ _

/-! ## §6. Other operators -/

/-- The code of a comparison compares. -/
theorem exec_comparison {op : CompareOp} (h : CompareTyped l r) (a b : Word) (vs : List Value)
    (st : State) :
    exec C F call (comparison op l) (⟨r.valType, b⟩ :: ⟨l.valType, a⟩ :: vs) st =
      .next (⟨.i32, truth (Eval.compare F op l a b)⟩ :: vs) st := by
  cases h with
  | int =>
    have hcode : comparison op .int = .int (intCompare true op) := rfl
    rw [hcode]
    exact (exec_int _ _ _ _ _).trans (by rw [eval_intCompare]; rfl)
  | float =>
    have hcode : comparison op .float = .float (floatCompare op) := rfl
    rw [hcode]
    exact (exec_float _ _ _ _ _).trans (by rw [eval_floatCompare]; rfl)
  | pointer hp hq hd =>
    have hcode : comparison op l = .int (intCompare false op) := by
      simp [comparison, Ty.ne_float_of_isPointerLike hp, hp]
    have hmeans : Eval.compare F op l a b = Eval.compareInt op a.toNat b.toNat := by
      simp [Eval.compare, Ty.ne_float_of_isPointerLike hp, hp]
    rw [hcode, hmeans, Ty.valType_of_isPointerLike hp, Ty.valType_of_isPointerLike hq, exec_int,
      eval_intCompare]
    rfl

/-- The word that is tested for a value of type `ty`. -/
def conditionWord (F : FloatUnit) (ty : Ty) (w : Word) : Word :=
  if ty = .float then truth (Eval.holds F ty w) else w

/-- A condition is not zero if it holds. -/
theorem conditionWord_ne_zero (F : FloatUnit) (ty : Ty) (w : Word) :
    conditionWord F ty w ≠ 0 ↔ Eval.holds F ty w = true := by
  unfold conditionWord
  split
  · exact truth_ne_zero _
  · rename_i hty
    rw [Eval.holds, if_neg hty, decide_eq_true_iff]

/-- A value becomes its condition. -/
theorem exec_toCondition (ty : Ty) (w : Word) (vs : List Value) (st : State) :
    execAll C F call (toCondition ty) (⟨ty.valType, w⟩ :: vs) st =
      .next (⟨.i32, conditionWord F ty w⟩ :: vs) st := by
  by_cases hty : ty = .float
  · subst hty
    have hcode : toCondition .float = [.const (.zero .f32), .float .ne] := rfl
    rw [hcode, execAll_cons, exec_const, Flow.andThen, execAll_singleton]
    exact exec_float _ _ _ _ _
  · rw [toCondition, if_neg hty, conditionWord, if_neg hty, Ty.valType_of_ne_float hty]
    exact execAll_nil _ _

/-- A conversion converts. -/
theorem exec_convertTy {s t : Ty} (h : Typing.castable s t = true) (w : Word) (vs : List Value)
    (st : State) :
    execAll C F call (convert s t) (⟨s.valType, w⟩ :: vs) st =
      (Eval.Result.orTrap (Eval.convert F s t w) st).flow (push t.valType) vs := by
  cases s with
  | int =>
    cases t with
    | int => exact execAll_nil _ _
    | float => exact (execAll_singleton _ _ _).trans (exec_convert _ _ _)
    | pointer base => exact execAll_nil _ _
    | void => cases h
    | array base n => cases h
  | float =>
    cases t with
    | int => exact (execAll_singleton _ _ _).trans (exec_truncate _ _ _)
    | float => exact execAll_nil _ _
    | _ => cases h
  | pointer base =>
    cases t with
    | int => exact execAll_nil _ _
    | pointer base' => exact execAll_nil _ _
    | _ => cases h
  | void => cases h
  | array base n => cases h

/-- What is at an address is loaded, unless it is an array. -/
theorem exec_loadFrom (pointee : Ty) (w : Word) (vs : List Value) (st : State) :
    execAll C F call (loadFrom pointee) (⟨.i32, w⟩ :: vs) st =
      (if pointee.isArray then Eval.Result.value w st
        else .orTrap (st.store.memory.load w) st).flow (push pointee.valType) vs := by
  unfold loadFrom
  split
  · rename_i ha
    rw [execAll_nil, Ty.valType_of_isArray ha]
    rfl
  · rw [execAll_singleton, exec_load]

end Operators

end Lower

/-! ## §7. Operators as instructions -/

/-- The instruction computes a value from those on top of the stack. -/
def Wasm.Instr.isOperator : Instr → Bool
  | .const _ | .load _ | .int _ | .float _ | .eqz | .floatNeg | .convert | .truncate => true
  | _ => false

namespace Lower

theorem isOperator_scale (stride : Nat) : ∀ i ∈ scale stride, i.isOperator = true := by
  unfold scale
  split
  · exact List.forall_mem_nil _
  · exact List.forall_mem_cons.2 ⟨rfl, List.forall_mem_singleton.2 rfl⟩

theorem isOperator_unscale (stride : Nat) : ∀ i ∈ unscale stride, i.isOperator = true := by
  unfold unscale
  split
  · exact List.forall_mem_nil _
  · exact List.forall_mem_cons.2 ⟨rfl, List.forall_mem_singleton.2 rfl⟩

/-- What scales the left operand is operators only. -/
theorem isOperator_afterLeft (op : ArithOp) (l r : Ty) :
    ∀ i ∈ afterLeft op l r, i.isOperator = true := by
  unfold afterLeft
  split
  · exact isOperator_scale _
  · exact List.forall_mem_nil _

/-- What scales the right operand is operators only. -/
theorem isOperator_afterRight (op : ArithOp) (l r : Ty) :
    ∀ i ∈ afterRight op l r, i.isOperator = true := by
  unfold afterRight
  split
  · exact isOperator_scale _
  · exact List.forall_mem_nil _

/-- Arithmetic is operators only. -/
theorem isOperator_arithmetic (op : ArithOp) (l r : Ty) :
    ∀ i ∈ arithmetic op l r, i.isOperator = true := by
  unfold arithmetic
  split
  · exact List.forall_mem_singleton.2 rfl
  · refine List.forall_mem_cons.2 ⟨rfl, ?_⟩
    split
    · exact isOperator_unscale _
    · exact List.forall_mem_nil _

theorem isOperator_comparison (op : CompareOp) (l : Ty) : (comparison op l).isOperator = true := by
  unfold comparison
  split <;> rfl

theorem isOperator_toCondition (ty : Ty) : ∀ i ∈ toCondition ty, i.isOperator = true := by
  unfold toCondition
  split
  · exact List.forall_mem_cons.2 ⟨rfl, List.forall_mem_singleton.2 rfl⟩
  · exact List.forall_mem_nil _

/-- Truth values are made by operators only. -/
theorem isOperator_toTruth (e : Expr) : ∀ i ∈ toTruth e, i.isOperator = true := by
  unfold toTruth
  split
  · exact isOperator_toCondition _
  · split
    · exact List.forall_mem_nil _
    · exact List.forall_mem_cons.2 ⟨rfl, List.forall_mem_singleton.2 rfl⟩

theorem isOperator_loadFrom (ty : Ty) : ∀ i ∈ loadFrom ty, i.isOperator = true := by
  unfold loadFrom
  split
  · exact List.forall_mem_nil _
  · exact List.forall_mem_singleton.2 rfl

/-- Casts are operators only. -/
theorem isOperator_convert (s t : Ty) : ∀ i ∈ convert s t, i.isOperator = true := by
  unfold convert
  split
  · exact List.forall_mem_singleton.2 rfl
  · exact List.forall_mem_singleton.2 rfl
  · exact List.forall_mem_nil _

/-! ## §8. What the code of expressions is made of -/

/-- The property holds of whatever the code of an expression over the variables
`V` is made of, and putting code together keeps it. -/
structure Composed (Γ : Symbols) (V : VarId → Prop) (env : Env) (P : List Instr → Prop) :
    Prop where
  operators : ∀ {code : List Instr}, (∀ i ∈ code, i.isOperator = true) → P code
  get : ∀ {v : VarId} {sym : VarSymbol}, Γ.var? v = some sym → V v → P [env.get v]
  set : ∀ {v : VarId} {sym : VarSymbol}, Γ.var? v = some sym → V v → sym.ty.isArray = false →
    P [env.set v]
  call : ∀ f, P [.call f]
  append : ∀ {code code' : List Instr}, P code → P code' → P (code ++ code')
  choice : ∀ {body other : List Instr}, P body → P other → P [.ifValue body other]

namespace Composed

variable {Γ : Symbols} {V : VarId → Prop} {env : Env} {P : List Instr → Prop}

theorem operator (hP : Composed Γ V env P) {i : Instr} (h : i.isOperator = true) : P [i] :=
  hP.operators (List.forall_mem_singleton.2 h)

mutual

/-- **A property of what it is made of is one of the code of an expression.** -/
theorem expr (hP : Composed Γ V env P) {e : Expr} {t : Ty} (h : HasTy Γ V e t) :
    P (Lower.expr env e) := by
  cases h with
  | @literal value ty line => cases value <;> exact hP.operator rfl
  | var hv hu hne => exact hP.get hv hu
  | call hf hargs => exact hP.append (hP.exprs hargs) (hP.call _)
  | negate he hn =>
    rw [Lower.expr]
    split
    · exact hP.append (hP.expr he) (hP.operator rfl)
    · exact hP.append (hP.operator rfl) (hP.append (hP.expr he) (hP.operator rfl))
  | not he hs =>
    rw [Lower.expr]
    refine hP.append (hP.expr he) ?_
    split
    · exact hP.append (hP.operator rfl) (hP.operator rfl)
    · exact hP.operator rfl
  | deref he hb hne => exact hP.append (hP.expr he) (hP.operators (isOperator_loadFrom _))
  | addressOfVar hv ha =>
    cases hv with
    | var hv hu hne => exact hP.get hv hu
  | addressOfDeref he =>
    cases he with
    | deref he hb hne =>
      rw [Lower.expr]
      exact hP.expr he
  | cast he hc => exact hP.append (hP.expr he) (hP.operators (isOperator_convert _ _))
  | assign hv ha hr hd hty =>
    cases hv with
    | var hv hu hne => exact hP.append (hP.expr hr) (hP.set hv hu ha)
  | @arith op l r ty line _ hl hr hop =>
    have hleft := hP.append (hP.expr hl) (hP.operators (isOperator_afterLeft op l.ty r.ty))
    have hright := hP.append (hP.append hleft (hP.expr hr))
      (hP.operators (isOperator_afterRight op l.ty r.ty))
    exact hP.append hright (hP.operators (isOperator_arithmetic op l.ty r.ty))
  | compare hl hr hop =>
    exact hP.append (hP.append (hP.expr hl) (hP.expr hr))
      (hP.operator (isOperator_comparison _ _))
  | bitwise hl hr hop =>
    exact hP.append (hP.append (hP.expr hl) (hP.expr hr)) (hP.operator rfl)
  | @logical op l r ty line hl hr hs =>
    have htest := hP.append (hP.expr hl) (hP.operators (isOperator_toTruth l))
    have hother := hP.append (hP.expr hr) (hP.operators (isOperator_toTruth r))
    cases op with
    | and => exact hP.append htest (hP.choice hother (hP.operator rfl))
    | or => exact hP.append htest (hP.choice (hP.operator rfl) hother)

/-- What holds of composed code holds of arguments. -/
theorem exprs (hP : Composed Γ V env P) {es : List Expr} {tys : List Ty}
    (h : HaveTys Γ V es tys) : P (Lower.exprs env es) := by
  cases h with
  | nil => exact hP.operators (List.forall_mem_nil _)
  | cons he hd hty hne hes => exact hP.append (hP.expr he) (hP.exprs hes)

end

theorem condition (hP : Composed Γ V env P) {e : Expr} {t : Ty} (h : HasTy Γ V e t) :
    P (Lower.condition env e) :=
  hP.append (hP.expr h) (hP.operators (isOperator_toCondition _))

end Composed

end Lower

end MiniC
