/-
  MiniC.Proofs.Lowering.Offsets

  **What is added to a pointer is what is found between the pointers.**

  A number next to a pointer is scaled by the size of what the pointer points
  to, and the difference of two pointers is divided by it.  Sums of addresses
  wrap around at 2 ^ 32, so the two only cancel because the number of bytes
  between the pointers, taken as signed, is still the exact one:

    • `toInt_scaled`: scaling is exact where the number of bytes fits,
    • `quotient_scaled`, `quotient_neg_scaled`: dividing it gives the number of
      elements back, with its sign,
    • `combines`: from the values of operands to the value of their sum or
      difference, on the machine.
-/
import MiniC.Proofs.Lowering.Exprs

namespace MiniC

open Exec Wasm

/-! ## §1. Numbers of bytes -/

namespace Ty

/-- The pointer that `u` is used as counts in the same elements as `u`. -/
theorem of_eq_decay {t u : Ty} (hu : u.isPointerLike = true) (h : t = u.decay) :
    t.isPointerLike = true ∧ t.decay = u.decay ∧ t.stride = u.stride := by
  subst h
  refine ⟨?_, decay_decay u, ?_⟩
  · cases u with
    | pointer base => rfl
    | array base n => rfl
    | _ => cases hu
  · rw [stride, base?_decay, stride]

end Ty

namespace Lower

section Words

variable {n : Word} {stride : Nat} (hs : stride ≤ 0x7FFFFFFF)
  (hlow : -0x80000000 < n.toInt * stride) (hhigh : n.toInt * stride < 0x80000000)
include hs hlow hhigh

/-- A number of bytes that fits is computed exactly. -/
theorem toInt_scaled : (n * BitVec.ofNat 32 stride).toInt = n.toInt * stride := by
  rw [BitVec.toInt_mul, toInt_stride hs]
  exact Int.bmod_eq_of_le (by omega) (by omega)

variable (hpos : 0 < stride)
include hpos

/-- The number of elements is found again from the number of bytes. -/
theorem quotient_scaled :
    Eval.quotient (n * BitVec.ofNat 32 stride).toInt (BitVec.ofNat 32 stride).toInt = some n := by
  rw [toInt_scaled hs hlow hhigh, toInt_stride hs, Eval.quotient, if_neg (by omega),
    Int.mul_tdiv_cancel _ (by omega), BitVec.ofInt_toInt]

/-- The number of bytes is never the least word, which has no opposite. -/
theorem quotient_neg_scaled :
    Eval.quotient (-(n * BitVec.ofNat 32 stride)).toInt (BitVec.ofNat 32 stride).toInt =
      some (-n) := by
  have hneg : (-(n * BitVec.ofNat 32 stride)).toInt = -(n.toInt * stride) := by
    rw [BitVec.toInt_neg, toInt_scaled hs hlow hhigh]
    exact Int.bmod_eq_of_le (by omega) (by omega)
  rw [hneg, toInt_stride hs, Eval.quotient, if_neg (by omega), Int.neg_tdiv,
    Int.mul_tdiv_cancel _ (by omega), BitVec.ofInt_neg, BitVec.ofInt_toInt]

end Words

/-! ## §2. Sums and differences on the machine -/

section Offsets

variable {C : Context} {F : FloatUnit} {call : String → List Word → Store → Option Reply}
  {env : Env} {st : State} {l r : Expr} {a b w : Word}

/-- In the state `st`, the code of an expression pushes `w` and does nothing
else. -/
def PushesAt (C : Context) (F : FloatUnit) (call : String → List Word → Store → Option Reply)
    (env : Env) (st : State) (e : Expr) (w : Word) : Prop :=
  ∀ vs, execAll C F call (expr env e) vs st = .next (⟨e.ty.valType, w⟩ :: vs) st

/-- The sum or other arithmetic of two operands is typed as `e`, of type `t`,
and yields `w`. -/
def Combines (C : Context) (F : FloatUnit) (call : String → List Word → Store → Option Reply)
    (env : Env) (st : State) (op : ArithOp) (l r : Expr) (line : Nat) (t : Ty) (w : Word)
    (e : Expr) : Prop :=
  Typing.binary (.arith op) l r line = .ok e ∧ e.ty = t ∧ PushesAt C F call env st e w

/-- **Arithmetic that obeys the rules** is typed by them and yields what the
operator means. -/
theorem combines {op : ArithOp} {t : Ty} (h : ArithTyped op l.ty r.ty t)
    (hl : PushesAt C F call env st l a) (hr : PushesAt C F call env st r b)
    (hw : Eval.arith F op l.ty r.ty a b = some w) (line : Nat) :
    Combines C F call env st op l r line t w (.binary (.arith op) l r t line) := by
  refine ⟨Typing.binary_of_arithTyped h line, rfl, fun vs => ?_⟩
  rw [expr]
  simp only [List.append_assoc]
  rw [execAll_append, hl vs, Flow.andThen, execAll_append, exec_afterLeft h, Flow.andThen,
    execAll_append, hr, Flow.andThen, execAll_append, exec_afterRight h, Flow.andThen,
    exec_arithmetic h, hw]
  rfl

/-- The difference of two pointers `a` and `b` that are `d` bytes apart. -/
theorem combines_difference {d : Word} (hl : l.ty.isPointerLike = true)
    (hr : r.ty.isPointerLike = true) (hty : l.ty.decay = r.ty.decay)
    (hla : PushesAt C F call env st l a) (hrb : PushesAt C F call env st r b) (hd : a - b = d)
    (hw : Eval.quotient d.toInt (BitVec.ofNat 32 l.ty.stride).toInt = some w) (line : Nat) :
    ∃ e, Combines C F call env st .sub l r line .int w e :=
  ⟨_, combines (.difference hl hr hty) hla hrb (by rw [arith_difference hl hr, hd, hw]) line⟩

end Offsets

/-- **Pointer arithmetic cancels.**  Let `p` be a pointer or an array of elements of
less than 2 ^ 31 bytes and `n` an integer such that `n` elements are less than 2 ^ 31
bytes, in either direction.  Then `p + n` and `n + p` are pointers;
`(p + n) - p` and `(n + p) - p` yield `n`, `p - (p + n)` yields `-n`, and `(p + n) - n`
yields `p`, whether or not the address wraps around. -/
theorem offsets_cancel {C : Context} {F : FloatUnit}
    {call : String → List Word → Store → Option Reply} {env : Env} {st : State} {p n : Expr}
    {a b : Word} (hp : p.ty.isPointerLike = true) (hs : p.ty.stride ≤ 0x7FFFFFFF)
    (hn : n.ty = .int) (ha : PushesAt C F call env st p a) (hb : PushesAt C F call env st n b)
    (hlow : -0x80000000 < b.toInt * p.ty.stride) (hhigh : b.toInt * p.ty.stride < 0x80000000)
    (line line' : Nat) :
    ∃ sum sum', Combines C F call env st .add p n line p.ty.decay
        (a + b * BitVec.ofNat 32 p.ty.stride) sum ∧
      Combines C F call env st .add n p line p.ty.decay
        (b * BitVec.ofNat 32 p.ty.stride + a) sum' ∧
      (∃ e, Combines C F call env st .sub sum p line' .int b e) ∧
      (∃ e, Combines C F call env st .sub sum' p line' .int b e) ∧
      (∃ e, Combines C F call env st .sub p sum line' .int (-b) e) ∧
      ∃ e, Combines C F call env st .sub sum n line' p.ty.decay a e := by
  have htyped : ArithTyped .add p.ty n.ty p.ty.decay := hn ▸ .pointerAdd hp
  have htyped' : ArithTyped .add n.ty p.ty p.ty.decay := hn ▸ .addPointer hp
  obtain ⟨sum, hsum⟩ : ∃ e, Combines C F call env st .add p n line p.ty.decay
      (a + b * BitVec.ofNat 32 p.ty.stride) e :=
    ⟨_, combines htyped ha hb (by rw [hn]; exact arith_pointer_add hp a b) line⟩
  obtain ⟨sum', hsum'⟩ : ∃ e, Combines C F call env st .add n p line p.ty.decay
      (b * BitVec.ofNat 32 p.ty.stride + a) e :=
    ⟨_, combines htyped' hb ha (by rw [hn]; exact arith_add_pointer hp b a) line⟩
  -- the sums count in the same elements as `p`
  obtain ⟨hptr, hsame, hstride⟩ := Ty.of_eq_decay hp hsum.2.1
  obtain ⟨hptr', hsame', hstride'⟩ := Ty.of_eq_decay hp hsum'.2.1
  have hquot := quotient_scaled hs hlow hhigh p.ty.stride_pos
  have hquot' := quotient_neg_scaled hs hlow hhigh p.ty.stride_pos
  -- the addresses are so many bytes apart, wherever they wrap around
  have hforth : ∀ d : Word, a + d - a = d := fun d => by bv_omega
  have hback : ∀ d : Word, a - (a + d) = -d := fun d => by bv_omega
  refine ⟨sum, sum', hsum, hsum', ?_, ?_, ?_, ?_⟩
  · exact combines_difference hptr hp hsame hsum.2.2 ha (hforth _)
      (by rw [hstride]; exact hquot) line'
  · exact combines_difference hptr' hp hsame' hsum'.2.2 ha (BitVec.add_sub_cancel _ _)
      (by rw [hstride']; exact hquot) line'
  · exact combines_difference hp hptr hsame.symm ha hsum.2.2 (hback _) hquot' line'
  · have hless : ArithTyped .sub sum.ty n.ty p.ty.decay := hn ▸ hsame ▸ .pointerSub hptr
    refine ⟨_, combines hless hsum.2.2 hb ?_ line'⟩
    rw [hn, arith_pointer_sub hptr, hstride, BitVec.add_sub_cancel]

/-- In the function of the sample program, an expression pushes `w`. -/
def SamplePushes (e : Expr) (w : Word) : Prop :=
  PushesAt ((program sampleProgram).context
    (function (.ofSymbols sampleProgram.symbols) sampleFunction)) sampleFloats
    (fun _ _ s => some (.trap s)) (.ofSymbols sampleProgram.symbols) sampleState e w

/-- The array of the sample program. -/
def sampleArray : Expr := .var ⟨0⟩ (.array .int 2) 1

/-- Five, with its sign changed. -/
def minusFive : Expr := .literal (.int (-5)) .int 1

/-- The array stands at sixteen.  Five elements before it the address has wrapped
around, and the difference is five all the same. -/
theorem offsets_cancel_before :
    SamplePushes sampleArray 16 ∧ SamplePushes minusFive (-5) ∧
      ∃ sum e, Typing.binary (.arith .add) sampleArray minusFive 1 = .ok sum ∧
        Typing.binary (.arith .sub) sum sampleArray 1 = .ok e ∧
        SamplePushes sum 0xFFFFFFFC ∧ SamplePushes e (-5) := by
  have harray : SamplePushes sampleArray 16 := fun vs => rfl
  have hfive : SamplePushes minusFive (-5) := fun vs => rfl
  have haddress : (16 : Word) + -5 * BitVec.ofNat 32 sampleArray.ty.stride = 0xFFFFFFFC := by
    decide
  obtain ⟨sum, _, ⟨hadd, _, hsum⟩, _, ⟨e, hsub, _, he⟩, _⟩ :=
    offsets_cancel rfl (by decide) rfl harray hfive (by decide) (by decide) 1 1
  rw [haddress] at hsum
  exact ⟨harray, hfive, sum, e, hadd, hsub, hsum, he⟩

end Lower

end MiniC
