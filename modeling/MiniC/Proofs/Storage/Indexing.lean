/-
  MiniC.Proofs.Storage.Indexing

  **Elements of an array are found row by row.**

  An array of arrays is indexed by `*(… *(*(a + i₁) + i₂) … + iₙ)`.  Every sum
  counts in elements of the type that is left, and every `*` but the last one
  gives an array again, which stands for its address and is not loaded.

    • `Locates`: code that computes an address, whatever lies on the stack,
    • `Locates.element`: one more index moves the address by as many elements,
    • `exec_indexed`: with all indices given there is one load, at the address of
      the element.

  Where the array ends at or below 2 ^ 32, no sum on the way wraps around.
-/
import MiniC.Proofs.Storage.Arrays
import MiniC.Proofs.Storage.Placement

namespace MiniC

open Exec Wasm Memory

/-! ## §1. Rows -/

/-- The number of an element in an array with these lengths, counted row by
row: `((i₁ * l₂ + i₂) * l₃ + …) + iₙ`. -/
def rowMajor (lengths indices : List Nat) : Nat :=
  (lengths.zip indices).foldl (fun r d => r * d.1 + d.2) 0

section Rows

variable {l i : Nat} {ls is js : List Nat}

/-- Going down the lengths counts row by row. -/
theorem foldl_rowMajor (h : List.Forall₂ (· < ·) is ls) (r : Nat) :
    (ls.zip is).foldl (fun r d => r * d.1 + d.2) r = r * ls.prod + rowMajor ls is := by
  unfold rowMajor
  induction h generalizing r with
  | nil => simp
  | @cons i l is ls hi h ih =>
    rw [List.zip_cons_cons, List.foldl_cons, List.foldl_cons, ih, ih (0 * l + i),
      List.prod_cons]
    ring

/-- The first index counts rows. -/
theorem rowMajor_cons (h : List.Forall₂ (· < ·) is ls) :
    rowMajor (l :: ls) (i :: is) = i * ls.prod + rowMajor ls is := by
  rw [rowMajor, List.zip_cons_cons, List.foldl_cons, foldl_rowMajor h, Nat.zero_mul, Nat.zero_add]

/-- An element in range is one of the elements. -/
theorem rowMajor_lt (h : List.Forall₂ (· < ·) is ls) : rowMajor ls is < ls.prod := by
  induction h with
  | nil => exact Nat.one_pos
  | @cons i l is ls hi h ih =>
    have hrows : (i + 1) * ls.prod ≤ l * ls.prod := Nat.mul_le_mul_right _ hi
    rw [rowMajor_cons h, List.prod_cons]
    rw [Nat.succ_mul] at hrows
    omega

/-- Different indices in range are those of different elements. -/
theorem rowMajor_inj (hi : List.Forall₂ (· < ·) is ls) (hj : List.Forall₂ (· < ·) js ls)
    (h : rowMajor ls is = rowMajor ls js) : is = js := by
  induction hi generalizing js with
  | nil =>
    cases hj
    rfl
  | @cons i l is ls hil hi ih =>
    cases hj with
    | @cons j _ js _ hjl hj =>
      rw [rowMajor_cons hi, rowMajor_cons hj] at h
      have hrest := rowMajor_lt hi
      have hrest' := rowMajor_lt hj
      have hpos : 0 < ls.prod := by omega
      -- the number of the row and the number in the row
      have hrow : i = j := by
        have hdiv := congrArg (· / ls.prod) h
        simpa only [Nat.mul_comm _ ls.prod, Nat.mul_add_div hpos, Nat.div_eq_of_lt hrest,
          Nat.div_eq_of_lt hrest', Nat.add_zero] using hdiv
      subst hrow
      rw [ih hj (Nat.add_left_cancel h)]

end Rows

/-! ## §2. Arrays of arrays -/

namespace Ty

variable {element : Ty} {l : Nat} {ls : List Nat}

theorem arrayOf_cons : arrayOf element (l :: ls) = .array (arrayOf element ls) l := rfl

/-- Arrays with positive lengths can be declared. -/
theorem isDeclarable_arrayOf (he : element.isScalar = true) (hls : ∀ l ∈ ls, 0 < l) :
    (arrayOf element ls).isDeclarable = true := by
  induction ls with
  | nil =>
    cases element with
    | int | float | pointer => rfl
    | void | array => cases he
  | cons l ls ih =>
    rw [List.forall_mem_cons] at hls
    rw [arrayOf_cons, isDeclarable, ih hls.2, Bool.and_true, decide_eq_true hls.1]

/-- An array has the lengths it was made with. -/
theorem lengths_arrayOf (he : element.isScalar = true) (ls : List Nat) :
    (arrayOf element ls).lengths = ls := by
  induction ls with
  | nil =>
    cases element with
    | int | float | pointer => rfl
    | void | array => cases he
  | cons l ls ih => rw [arrayOf_cons, lengths, ih]

/-- The size of an array that is not too large for a word. -/
theorem size_arrayOf (he : element.isScalar = true) (hls : ∀ l ∈ ls, 0 < l) :
    (arrayOf element ls).size = saturate (4 * ls.prod) := by
  rw [size_eq_saturate (isDeclarable_arrayOf he hls), exactSize, lengths_arrayOf he]

/-- Neighbours in an array of arrays are apart by the size of a row. -/
theorem stride_arrayOf (he : element.isScalar = true) (hls : ∀ l ∈ ls, 0 < l)
    (hfits : 4 * ls.prod < 2 ^ 32) : (arrayOf element (l :: ls)).stride = 4 * ls.prod := by
  have hpos : 0 < ls.prod := List.prod_pos hls
  show max (arrayOf element ls).size 1 = 4 * ls.prod
  rw [size_arrayOf he hls, saturate, maxWord]
  omega

end Ty

/-! ## §3. Addresses -/

section Places

theorem Ty.align_pos (ty : Ty) : 0 < ty.align := by
  induction ty with
  | array base n ih => exact ih
  | int | float | void | pointer => exact Nat.succ_pos _

/-- Aligning goes up. -/
theorem Memory.le_alignUp {offset align : Nat} (ha : 0 < align) (h : offset ≤ maxWord) :
    offset ≤ alignUp offset align := by
  have hdiv := Nat.div_add_mod offset align
  have hmod := Nat.mod_lt offset ha
  unfold alignUp saturate
  refine Nat.le_min.2 ⟨?_, h⟩
  unfold divCeil
  rw [Nat.mul_comm]
  split
  · rw [Nat.add_zero]
    omega
  · rw [Nat.mul_add]
    omega

/-- Nothing is placed below the first address. -/
theorem StaticLayout.le_address? {offset : Nat} {tys : List Ty} {i a : Nat}
    (hoffset : offset ≤ maxWord) (h : (place offset tys).address? i = some a) : offset ≤ a := by
  induction tys generalizing offset i with
  | nil => cases h
  | cons ty tys ih =>
    rw [place] at h
    split at h
    · have halign := le_alignUp ty.align_pos hoffset
      cases i with
      | zero =>
        cases Option.some.inj h
        exact halign
      | succ i =>
        have hnext : offset ≤ saturate (alignUp offset ty.align + ty.size) :=
          Nat.le_min.2 ⟨by omega, hoffset⟩
        exact Nat.le_trans hnext (ih (Nat.min_le_right _ _) h)
    · cases i with
      | zero => cases h
      | succ i => exact ih hoffset h

end Places

/-! ## §4. Expressions that index -/

/-- `*(… *(*(b + i₁) + i₂) … + iₙ)`. -/
inductive Indexed : Expr → List Expr → Expr → Prop where
  | done (b : Expr) : Indexed b [] b
  | more {b i e : Expr} {is : List Expr} {ty ty' : Ty} {line line' : Nat}
      (h : Indexed (.unary .deref (.binary (.arith .add) b i ty line) ty' line') is e) :
      Indexed b (i :: is) e

section Typing

variable {Γ : Symbols} {U : VarId → Prop}
variable {b : Expr} {t : Ty}

/-- The types around an element of an array. -/
theorem HasTy.of_element {i : Expr} {base ty ty' : Ty} {l line line' : Nat}
    (h : HasTy Γ U (.unary .deref (.binary (.arith .add) b i ty line) ty' line') t)
    (hb : b.ty = .array base l) :
    ty = .pointer base ∧ t = base ∧ i.ty = .int ∧ HasTy Γ U i i.ty := by
  cases h with
  | deref he hbase hne =>
    cases he with
    | arith hl hr hop =>
      rw [hb] at hop
      have hsum : ty = .pointer base ∧ i.ty = .int := by
        generalize i.ty = r at hop
        cases hop with
        | pointerAdd hp => exact ⟨rfl, rfl⟩
      rw [hsum.1] at hbase
      exact ⟨hsum.1, (Option.some.inj hbase).symm, hsum.2, hr⟩

/-- What is indexed is well typed, and carries its own type. -/
theorem Indexed.typed {e : Expr} {is : List Expr} (h : Indexed b is e) (he : HasTy Γ U e t) :
    ∃ t', HasTy Γ U b t' ∧ (is ≠ [] → b.ty = t') := by
  induction h with
  | done b => exact ⟨t, he, fun hne => absurd rfl hne⟩
  | more h ih =>
    obtain ⟨t', ht', _⟩ := ih he
    cases ht' with
    | deref hadd hbase hne =>
      cases hadd with
      | arith hl hr hop => exact ⟨_, hl, fun _ => rfl⟩

/-- All indices are integers. -/
theorem Indexed.haveTys {e : Expr} {is : List Expr} {element : Ty} {ls : List Nat}
    (h : Indexed b is e) (he : HasTy Γ U e t) (hb : b.ty = .arrayOf element ls)
    (hlen : is.length = ls.length) : HaveTys Γ U is (is.map fun _ => .int) := by
  induction h generalizing ls with
  | done b => exact .nil
  | @more b i e is ty ty' line line' h ih =>
    cases ls with
    | nil => cases hlen
    | cons l ls =>
      obtain ⟨t', ht', hty⟩ := h.typed he
      obtain ⟨_, rfl, hi, hit⟩ := HasTy.of_element ht' hb
      refine .cons hit (hi ▸ .refl _) hi nofun ?_
      cases is with
      | nil => exact .nil
      | cons j js => exact ih he (hty (List.cons_ne_nil _ _)) (Nat.succ.inj hlen)

end Typing

/-! ## §5. Code that computes addresses -/

/-- A constant, or an operator on integers. -/
def Wasm.Instr.isArith : Instr → Bool
  | .const _ | .int _ => true
  | _ => false

/-- Arithmetic loads nothing. -/
theorem Wasm.Site.loads_eq_nil {S : Site} {code : List Instr}
    (h : ∀ i ∈ code, i.isArith = true) (vs : List Value) (st : State) :
    S.loads code vs st = [] := by
  induction code generalizing vs st with
  | nil =>
    unfold loads visits
    rw [along_nil]
    rfl
  | cons i code ih =>
    rw [List.forall_mem_cons] at h
    have hrest : ((exec S.context S.floats S.call i vs st).further
        (S.visits code)).filterMap Visit.load? = [] := by
      cases exec S.context S.floats S.call i vs st with
      | next vs' st' => exact ih h.2 vs' st'
      | _ => rfl
    have hhere : (S.here i vs st).load? = none ∧ S.inside i vs st = [] := by
      cases i with
      | const c | int op => exact ⟨rfl, rfl⟩
      | _ => cases h.1
    unfold loads visits
    rw [along_cons]
    show (S.here i vs st :: (S.inside i vs st ++ _)).filterMap Visit.load? = []
    rw [List.filterMap_cons, hhere.1, hhere.2]
    exact hrest

namespace Lower

section Code

variable {Γ : Symbols} {U : VarId → Prop} {S : Site}

variable (Γ S) in
/-- The code of an expression pushes an address, whatever lies on the stack,
and loads this on the way. -/
structure Locates (e : Expr) (st st' : State) (address : Nat) (loaded : List (ValType × Word)) :
    Prop where
  run : ∀ vs, S.run (expr (.ofSymbols Γ) e) vs st =
    .next (⟨.i32, BitVec.ofNat 32 address⟩ :: vs) st'
  loads : ∀ vs, S.loads (expr (.ofSymbols Γ) e) vs st = loaded

section Steps

variable {b i : Expr} {base ty ty' : Ty} {l n address line line' : Nat} {st st₁ st₂ : State}
  {loaded : List (ValType × Word)}

/-- A sum with an array counts in elements of it. -/
theorem expr_add (hb : b.ty = .array base l) (hi : i.ty = .int) :
    expr (.ofSymbols Γ) (.binary (.arith .add) b i ty line) =
      expr (.ofSymbols Γ) b ++ (expr (.ofSymbols Γ) i ++ (scale b.ty.stride ++ [.int .add])) := by
  have hleft : afterLeft .add b.ty i.ty = [] := by
    rw [hi]
    rfl
  have hright : afterRight .add b.ty i.ty = scale b.ty.stride := by
    rw [hb, hi]
    rfl
  have hop : arithmetic .add b.ty i.ty = [.int .add] := by
    rw [hb, hi]
    rfl
  rw [expr, hleft, hright, hop, List.append_nil, List.append_assoc, List.append_assoc]

/-- Scaling is arithmetic. -/
theorem isArith_scale (stride : Nat) : ∀ i ∈ scale stride ++ [.int .add], i.isArith = true := by
  have hadd : ∀ i ∈ [Instr.int .add], i.isArith = true := List.forall_mem_singleton.2 rfl
  unfold scale
  split
  · exact hadd
  · exact List.forall_mem_cons.2 ⟨rfl, List.forall_mem_cons.2 ⟨rfl, hadd⟩⟩

/-- The address of an element, from that of the array. -/
theorem Locates.add (hb : Locates Γ S b st st₁ address loaded) (hty : b.ty = .array base l)
    (hi : i.ty = .int)
    (hrun : S.run (expr (.ofSymbols Γ) i) [] st₁ = .next [⟨.i32, BitVec.ofNat 32 n⟩] st₂) :
    Locates Γ S (.binary (.arith .add) b i ty line) st st₂ (address + n * b.ty.stride)
      (loaded ++ S.loads (expr (.ofSymbols Γ) i) [] st₁) := by
  have hindex := S.run_above hrun
  have hword : BitVec.ofNat 32 (address + n * b.ty.stride) =
      BitVec.ofNat 32 address + BitVec.ofNat 32 n * BitVec.ofNat 32 b.ty.stride := by
    rw [BitVec.ofNat_add, BitVec.ofNat_mul]
  constructor
  · intro vs
    rw [expr_add hty hi, Site.run_append, hb.run, Flow.andThen, Site.run_append]
    rw [← List.nil_append (_ :: vs), hindex, Flow.andThen, Site.run_append, Site.run,
      List.singleton_append, exec_scale, Flow.andThen, execAll_singleton, exec_int, hword]
    rfl
  · intro vs
    rw [expr_add hty hi, Site.loads_append (hb.run vs), hb.loads, ← List.nil_append (_ :: vs),
      Site.loads_append (hindex _), Site.loads_eq_above hrun,
      Site.loads_eq_nil (isArith_scale _), List.append_nil]

/-- An array in an array is not loaded. -/
theorem Locates.element (h : Locates Γ S b st st₁ address loaded) (hty : b.ty = .pointer base)
    (hbase : base.isArray = true) :
    Locates Γ S (.unary .deref b ty line) st st₁ address loaded := by
  have hcode : expr (.ofSymbols Γ) (.unary .deref b ty line) = expr (.ofSymbols Γ) b := by
    rw [expr, hty]
    show _ ++ loadFrom base = _
    rw [loadFrom, if_pos hbase, List.append_nil]
  constructor
  · rw [hcode]
    exact h.run
  · rw [hcode]
    exact h.loads

/-- An element that is no array is loaded. -/
theorem Locates.fetch (h : Locates Γ S b st st₁ address loaded) (hty : b.ty = .pointer base)
    (hbase : base.isArray = false) (vs : List Value) :
    S.run (expr (.ofSymbols Γ) (.unary .deref b ty line)) vs st =
        (Eval.Result.orTrap (st₁.store.memory.load (BitVec.ofNat 32 address)) st₁).flow
          (push base.valType) vs ∧
      S.loads (expr (.ofSymbols Γ) (.unary .deref b ty line)) vs st =
        loaded ++ [(base.valType, BitVec.ofNat 32 address)] := by
  have hcode : expr (.ofSymbols Γ) (.unary .deref b ty line) =
      expr (.ofSymbols Γ) b ++ [.load base.valType] := by
    rw [expr, hty]
    show _ ++ loadFrom base = _
    rw [loadFrom, if_neg (by rw [hbase]; decide)]
  constructor
  · rw [hcode, Site.run_append, h.run, Flow.andThen, Site.run_singleton, exec_load]
  · rw [hcode, Site.loads_append (h.run vs), h.loads]
    unfold Site.loads
    rw [Site.visits_singleton]
    rfl

end Steps

/-! ## §6. All indices -/

theorem pos_of_forall₂ {is ls : List Nat} (h : List.Forall₂ (· < ·) is ls) : ∀ l ∈ ls, 0 < l := by
  induction h with
  | nil => exact List.forall_mem_nil _
  | cons hi _ ih => exact List.forall_mem_cons.2 ⟨Nat.zero_lt_of_lt hi, ih⟩

variable {callE : FuncId → List Word → Store → Reply}

/-- The code of an index, and that of the others after it. -/
theorem run_indices (hC : Agrees Γ U S.context) (hcall : CallsAgree Γ S.call callE) {i : Expr}
    {is : List Expr} (h : HaveTys Γ U (i :: is) ((i :: is).map fun _ => .int)) {w : Word}
    {ws : List Word} {st st₁ st₂ : State} (hw : Eval.expr Γ S.floats callE i st = .value w st₁)
    (hws : Eval.exprs Γ S.floats callE is st₁ = .value ws st₂) :
    S.run (expr (.ofSymbols Γ) i) [] st = .next [⟨.i32, w⟩] st₁ ∧
      S.loads (exprs (.ofSymbols Γ) (i :: is)) [] st =
        S.loads (expr (.ofSymbols Γ) i) [] st ++ S.loads (exprs (.ofSymbols Γ) is) [] st₁ := by
  cases h with
  | cons hit hd hty hne hrest =>
    have hpush := exec_expr (F := S.floats) hC hcall hit (hty ▸ hd) [] st
    rw [hw, hd.result?_eq] at hpush
    have hrun : S.run (expr (.ofSymbols Γ) i) [] st = .next [⟨.i32, w⟩] st₁ := hpush
    have hpushes := exec_exprs (F := S.floats) hC hcall hrest [] st₁
    rw [hws] at hpushes
    refine ⟨hrun, ?_⟩
    rw [exprs, Site.loads_append hrun, ← List.nil_append [_], Site.loads_eq_above hpushes]

/-- **With all indices given there is one load**, of the element, after those
that the indices take. -/
theorem exec_indexed (hC : Agrees Γ U S.context) (hcall : CallsAgree Γ S.call callE) {b e : Expr}
    {is : List Expr} (h : Indexed b is e) {t element : Ty} (he : HasTy Γ U e t)
    (hel : element.isScalar = true) {ls indices : List Nat} (hb : b.ty = .arrayOf element ls)
    (hne : ls ≠ []) (hrange : List.Forall₂ (· < ·) indices ls) (hfits : 4 * ls.prod < 2 ^ 32)
    {st st₁ st' : State} {address : Nat} {loaded : List (ValType × Word)}
    (hloc : Locates Γ S b st st₁ address loaded)
    (hvalues : Eval.exprs Γ S.floats callE is st₁ = .value (indices.map (BitVec.ofNat 32)) st')
    (vs : List Value) :
    S.run (expr (.ofSymbols Γ) e) vs st =
        (Eval.Result.orTrap (st'.store.memory.load
          (BitVec.ofNat 32 (address + 4 * rowMajor ls indices))) st').flow
            (push element.valType) vs ∧
      S.loads (expr (.ofSymbols Γ) e) vs st =
        loaded ++ (S.loads (exprs (.ofSymbols Γ) is) [] st₁ ++
          [(element.valType, BitVec.ofNat 32 (address + 4 * rowMajor ls indices))]) := by
  -- the induction is on the indices that are left, and `b` is the array found so far
  induction h generalizing ls indices st₁ address loaded with
  | done b =>
    rw [Eval.exprs] at hvalues
    cases hrange with
    | nil => exact absurd rfl hne
    | cons => cases hvalues
  | @more b i e is ty ty' line line' h ih =>
    cases hrange with
    | nil => exact absurd rfl hne
    | @cons n l ns ls hn hrange =>
      have hpos := pos_of_forall₂ hrange
      have hlen : (i :: is).length = (l :: ls).length := by
        rw [← length_of_exprs hvalues, List.length_map, List.length_cons, List.length_cons,
          hrange.length_eq]
      have hints := (Indexed.more h).haveTys he hb hlen
      obtain ⟨t', ht', hty⟩ := h.typed he
      obtain ⟨rfl, rfl, hi, _⟩ := ht'.of_element hb
      -- the first index, and the others
      rw [Eval.exprs] at hvalues
      obtain ⟨w, st₂, hw, hvalues⟩ := Eval.Result.andThen_eq_value hvalues
      obtain ⟨ws, st₃, hws, hvalues⟩ := Eval.Result.andThen_eq_value hvalues
      cases hvalues
      obtain ⟨hrun, hloads⟩ := run_indices hC hcall hints hw hws
      have hle : 4 * ls.prod < 2 ^ 32 := by
        have hmul : 1 * ls.prod ≤ l * ls.prod :=
          Nat.mul_le_mul_right _ (Nat.succ_le_of_lt (Nat.zero_lt_of_lt hn))
        rw [List.prod_cons] at hfits
        omega
      have hstride : b.ty.stride = 4 * ls.prod := by
        rw [hb, Ty.stride_arrayOf hel hpos hle]
      have hadd : Locates Γ S (.binary (.arith .add) b i (.pointer (.arrayOf element ls)) line)
          st st₂ (address + n * (4 * ls.prod))
          (loaded ++ S.loads (expr (.ofSymbols Γ) i) [] st₁) := by
        rw [← hstride]
        exact hloc.add hb hi hrun
      have haddress : address + 4 * rowMajor (l :: ls) (n :: ns) =
          address + n * (4 * ls.prod) + 4 * rowMajor ls ns := by
        rw [rowMajor_cons hrange]
        ring
      rw [haddress, hloads, List.append_assoc, ← List.append_assoc loaded]
      cases hrange with
      | nil =>
        -- the last index: what is found is loaded
        have hnil : is = [] := List.length_eq_zero_iff.1 (Nat.succ.inj hlen)
        subst hnil
        cases h
        cases hws
        have helement : element.isArray = false := by
          cases element with
          | array base l => cases hel
          | _ => rfl
        rw [exprs, Site.loads_eq_nil (List.forall_mem_nil _), List.nil_append]
        exact hadd.fetch rfl helement vs
      | @cons n' l' ns ls hn' hrange =>
        -- what is found is an array again
        have hnil : is ≠ [] := by
          rintro rfl
          cases hlen
        exact ih he (hty hnil) (List.cons_ne_nil _ _) (.cons hn' hrange) hle
          (hadd.element rfl rfl) hws

/-- The values that the code of integers leaves on the stack are theirs. -/
theorem values_of_run (hC : Agrees Γ U S.context) (hcall : CallsAgree Γ S.call callE)
    {is : List Expr} (h : HaveTys Γ U is (is.map fun _ => .int))
    {indices : List Nat} {st st' : State}
    (hrun : S.run (exprs (.ofSymbols Γ) is) [] st =
      .next (indices.map fun i => ⟨.i32, BitVec.ofNat 32 i⟩).reverse st') :
    Eval.exprs Γ S.floats callE is st = .value (indices.map (BitVec.ofNat 32)) st' := by
  have hpush := exec_exprs (F := S.floats) hC hcall h [] st
  rw [← Site.run, hrun] at hpush
  cases hvalues : Eval.exprs Γ S.floats callE is st with
  | value ws st'' =>
    rw [hvalues] at hpush
    obtain ⟨hstack, rfl⟩ := Flow.next.inj hpush
    rw [pushArgs, List.append_nil] at hstack
    have hlen : ws.length = (is.map fun _ => Ty.int).length := by
      rw [length_of_exprs hvalues, List.length_map]
    have hws := map_bits_zipWith hlen
    rw [← List.reverse_injective hstack, List.map_map] at hws
    rw [← hws]
    rfl
  | trap s =>
    rw [hvalues] at hpush
    cases hpush
  | exhausted s =>
    rw [hvalues] at hpush
    cases hpush

end Code

/-! ## §7. Elements -/

/-- The bytes of an element of an array at an address. -/
def elementBytes (address : Nat) (lengths indices : List Nat) : Finset Nat :=
  Finset.Ico (address + 4 * rowMajor lengths indices) (address + 4 * rowMajor lengths indices + 4)

/-- Different elements share no byte. -/
theorem disjoint_elementBytes (address : Nat) {lengths is js : List Nat}
    (hi : List.Forall₂ (· < ·) is lengths) (hj : List.Forall₂ (· < ·) js lengths) (hne : is ≠ js) :
    Disjoint (elementBytes address lengths is) (elementBytes address lengths js) := by
  have hnumber : rowMajor lengths is ≠ rowMajor lengths js :=
    fun heq => hne (rowMajor_inj hi hj heq)
  unfold elementBytes
  rw [Finset.disjoint_left]
  intro x hx hx'
  rw [Finset.mem_Ico] at hx hx'
  omega

/-- An array that ends in memory has the size that its lengths give. -/
theorem size_of_fits {tys : List Ty} {i address : Nat}
    (haddress : (StaticLayout.ofTypes tys).address? i = some address) {element : Ty}
    (hel : element.isScalar = true) {lengths : List Nat} (hpos : ∀ l ∈ lengths, 0 < l)
    (hfits : address + (Ty.arrayOf element lengths).size ≤ 2 ^ 32) :
    (Ty.arrayOf element lengths).size = 4 * lengths.prod ∧ 4 * lengths.prod < 2 ^ 32 := by
  have hbase : Memory.staticBase ≤ address :=
    StaticLayout.le_address? (by decide) haddress
  unfold Memory.staticBase at hbase
  rw [Ty.size_arrayOf hel hpos] at hfits ⊢
  unfold saturate maxWord at hfits ⊢
  omega

/-- What is about to be read of an array is its place. -/
theorem locates_array {p : Program} (hp : p.WellFormed) {F : FloatUnit} {x : Visit}
    (hyields : Yields p.symbols (program p) F x) {f : Function} (hf : f ∈ p.functions)
    (hfunc : x.func = function (.ofSymbols p.symbols) f) {a : VarId}
    (hread : x.instr = (Env.ofSymbols p.symbols).get a) {sym : VarSymbol}
    (hsym : p.symbols.var? a = some sym) (hu : a ∈ p.globals ∨ a ∈ f.locals) {address : Nat}
    (haddress : (StaticLayout.ofTypes p.symbols.varTypes).address? a.index = some address)
    (host : Host) (ty : Ty) (line : Nat) :
    Locates p.symbols ((program p).site F host x.func x.limit) (.var a ty line) x.state x.state
      address [] := by
  have hplace := place?_of_address? haddress
  have harray := isArray_of_place? hsym hplace
  have hC := agrees hp hf
  rw [← hfunc] at hC
  have hget : x.instr = .localGet a ∨ x.instr = .globalGet a := by
    rw [hread, Env.get]
    split
    · exact .inr rfl
    · exact .inl rfl
  have hvalue : Eval.read p.symbols a x.state = BitVec.ofNat 32 address := by
    have hexec := hyields a _ hplace hget fun _ _ _ => none
    rw [hread, exec_get hC hsym hu] at hexec
    injection hexec with hstack
    injection hstack with hhead
    exact (Value.mk.inj hhead).2
  constructor
  · intro vs
    rw [expr, Site.run_singleton]
    refine (exec_get hC hsym hu vs x.state).trans ?_
    rw [hvalue, Ty.valType_of_isArray harray]
  · intro vs
    unfold Site.loads
    rw [expr, Site.visits_singleton, Env.get]
    split <;> rfl

/-- **An element is loaded from its place, row by row.**  Whenever a run is
about to read an array in order to index it, and the indices have values in
range there, the code of `*(… *(*(a + i₁) + i₂) … + iₙ)` loads once, apart from
what the indices themselves load: a value of the type of the elements, from
`address + 4 * (((i₁ * l₂ + i₂) * l₃ + …) + iₙ)`.  Nothing wraps around, the bytes
are bytes of the array, and no other element has one of them. -/
theorem indexed_load {text : String} {p : Program} (h : parse text = .ok p) (F : FloatUnit)
    {host : Host} (hhost : (program p).RespectedBy host) (name : String) (args : List Word)
    {s : Store} (hs : (program p).Settled s.toWorld) {x : Visit}
    (hx : x ∈ (program p).visits F host name args s) {f : Function} (hf : f ∈ p.functions)
    (hfunc : x.func = function (.ofSymbols p.symbols) f) {a : VarId}
    (hread : x.instr = (Env.ofSymbols p.symbols).get a) {sym : VarSymbol}
    (hsym : p.symbols.var? a = some sym) {element : Ty} (hel : element.isScalar = true)
    {lengths : List Nat} (hty : sym.ty = .arrayOf element lengths) {address : Nat}
    (haddress : (StaticLayout.ofTypes p.symbols.varTypes).address? a.index = some address)
    (hfits : address + sym.ty.size ≤ 2 ^ 32) {e : Expr} (he : f.Mentions e) {ty : Ty} {line : Nat}
    {is : List Expr} (hindexed : Indexed (.var a ty line) is e)
    (hlength : is.length = lengths.length) {indices : List Nat}
    (hrange : List.Forall₂ (· < ·) indices lengths) {st : State}
    (hvalues : ((program p).site F host x.func x.limit).run (exprs (.ofSymbols p.symbols) is) []
      x.state = .next (indices.map fun i => ⟨.i32, BitVec.ofNat 32 i⟩).reverse st) :
    ∃ w : Word, w.toNat = address + 4 * rowMajor lengths indices ∧
      ((program p).site F host x.func x.limit).run (expr (.ofSymbols p.symbols) e) x.stack x.state =
        (match st.store.memory.load w with
        | some v => .next (⟨element.valType, v⟩ :: x.stack) st
        | none => .trap st.store) ∧
      ((program p).site F host x.func x.limit).loads (expr (.ofSymbols p.symbols) e) x.stack
          x.state =
        ((program p).site F host x.func x.limit).loads (exprs (.ofSymbols p.symbols) is) []
          x.state ++ [(element.valType, w)] ∧
      elementBytes address lengths indices ⊆ Finset.Ico address (address + sym.ty.size) ∧
      ∀ others, List.Forall₂ (· < ·) others lengths → others ≠ indices →
        Disjoint (elementBytes address lengths indices) (elementBytes address lengths others) := by
  have hp := wellFormed_of_parse h
  have hyields := (call_keeps h F hhost name args s ((settled_iff_fixed h _).1 hs)).1 x hx
  have hC := agrees hp hf
  rw [← hfunc] at hC
  have hcall : CallsAgree p.symbols ((program p).site F host x.func x.limit).call
      (fun g args s => Eval.call p F host g args (s.atMost x.limit)) :=
    fun hg args s hargs => callsAgree hp F host hg args _ hargs
  -- the array has a length, since it is one
  have harray := isArray_of_place? hsym (place?_of_address? haddress)
  have hne : lengths ≠ [] := by
    rintro rfl
    rw [hty] at harray
    cases element with
    | array base l => cases hel
    | _ => cases harray
  have hindices : is ≠ [] := by
    rintro rfl
    exact hne (List.length_eq_zero_iff.1 hlength.symm)
  obtain ⟨t, ht, _⟩ := (hp.functions f hf).wholeTyped he
  obtain ⟨t', hvar, hann⟩ := hindexed.typed ht
  have hb : (Expr.var a ty line).ty = .arrayOf element lengths := by
    rw [hann hindices, ← hty]
    cases hvar with
    | var hv _ _ =>
      rw [hsym] at hv
      rw [Option.some.inj hv]
  have hlocates := locates_array hp hyields hf hfunc hread hsym hvar.usable haddress host ty line
  have hints := values_of_run hC hcall (hindexed.haveTys ht hb hlength) hvalues
  rw [hty] at hfits ⊢
  obtain ⟨hsize, hword⟩ := size_of_fits haddress hel (pos_of_forall₂ hrange) hfits
  obtain ⟨hrun, hloads⟩ := exec_indexed hC hcall hindexed ht hel hb hne hrange hword hlocates hints
    x.stack
  have hnumber := rowMajor_lt hrange
  refine ⟨BitVec.ofNat 32 (address + 4 * rowMajor lengths indices), ?_, hrun.trans ?_, hloads, ?_,
    fun others hothers hother => disjoint_elementBytes address hrange hothers hother.symm⟩
  · rw [BitVec.toNat_ofNat]
    exact Nat.mod_eq_of_lt (by omega)
  · cases st.store.memory.load (BitVec.ofNat 32 (address + 4 * rowMajor lengths indices)) <;> rfl
  · rw [hsize]
    exact Finset.Ico_subset_Ico (by omega) (by omega)

/-- A function with a grid of two rows and three columns. -/
def gridText : String :=
  "int f(int i) { int a[2][3]; return *(*(a + i) + 2); }"

def gridIndices : List Expr := [.var ⟨0⟩ .int 1, .literal (.int 2) .int 1]

def gridElement : Expr :=
  .unary .deref (.binary (.arith .add) (.unary .deref (.binary (.arith .add)
      (.var ⟨1⟩ (.array (.array .int 3) 2) 1) (.var ⟨0⟩ .int 1) (.pointer (.array .int 3)) 1)
      (.array .int 3) 1) (.literal (.int 2) .int 1) (.pointer .int) 1) .int 1

def gridFunction : Function where
  id := ⟨0⟩
  name := "f"
  ret := .int
  params := [⟨0⟩]
  locals := [⟨0⟩, ⟨1⟩]
  body := [.declare ⟨1⟩ none, .ret (some gridElement)]

def gridProgram : Program where
  items := [.function gridFunction]
  imports := []
  symbols :=
    { vars := ⟨#[⟨"i", .int, .localVar, 1⟩, ⟨"a", .array (.array .int 3) 2, .localVar, 1⟩]⟩
      funcs := ⟨#[⟨"f", .int, [.int], .defined, 1⟩]⟩ }

/-- A store whose memory holds at each address the address. -/
def gridStore : Store := ⟨⟨fun _ => 0, ⟨64, fun n => BitVec.ofNat 8 n⟩⟩, [], 8⟩

set_option maxRecDepth 10000 in
theorem parse_gridText : parse gridText = .ok gridProgram := by
  cbv

/-- The last element of the second row is loaded from 36. -/
theorem indexed_load_grid :
    ∃ x ∈ (program gridProgram).visits sampleFloats (fun _ _ _ _ => none) "f" [1] gridStore,
      x.instr = .localGet ⟨1⟩ ∧ ∃ w : Word, w.toNat = 16 + 4 * (1 * 3 + 2) ∧
        ((program gridProgram).site sampleFloats (fun _ _ _ _ => none) x.func x.limit).loads
            (expr (.ofSymbols gridProgram.symbols) gridElement) x.stack x.state =
          ((program gridProgram).site sampleFloats (fun _ _ _ _ => none) x.func x.limit).loads
            (exprs (.ofSymbols gridProgram.symbols) gridIndices) [] x.state ++ [(.i32, w)] ∧
        elementBytes 16 [2, 3] [1, 2] ⊆ Finset.Ico 16 40 := by
  have hhost : (program gridProgram).RespectedBy fun _ _ _ _ => none := by
    intro name args calls w r w' heq
    cases heq
  have hvisit : ∃ x ∈ (program gridProgram).visits sampleFloats (fun _ _ _ _ => none) "f" [1]
      gridStore, x.instr = .localGet ⟨1⟩ ∧
        x.func = function (.ofSymbols gridProgram.symbols) gridFunction ∧
        ((program gridProgram).site sampleFloats (fun _ _ _ _ => none) x.func x.limit).run
          (exprs (.ofSymbols gridProgram.symbols) gridIndices) [] x.state =
            .next ([1, 2].map fun i => ⟨.i32, BitVec.ofNat 32 i⟩).reverse x.state := by
    refine ⟨_, List.mem_of_getElem? (i := 2) (by cbv), rfl, rfl, ?_⟩
    cbv
  obtain ⟨x, hx, hinstr, hfunc, hvalues⟩ := hvisit
  have hsym : gridProgram.symbols.var? ⟨1⟩ = some ⟨"a", .arrayOf .int [2, 3], .localVar, 1⟩ := rfl
  have hget : x.instr = (Env.ofSymbols gridProgram.symbols).get ⟨1⟩ := hinstr
  have haddress : (StaticLayout.ofTypes gridProgram.symbols.varTypes).address? 1 = some 16 := rfl
  have hindexed : Indexed (.var ⟨1⟩ (.array (.array .int 3) 2) 1) gridIndices gridElement :=
    .more (.more (.done _))
  have hrange : List.Forall₂ (· < ·) [1, 2] [2, 3] := .cons (by decide) (.cons (by decide) .nil)
  obtain ⟨w, hw, _, hloads, hbytes, _⟩ := indexed_load parse_gridText sampleFloats hhost "f" [1]
    (fun g hg => absurd hg List.not_mem_nil) hx (List.mem_singleton.2 rfl) hfunc hget hsym
    (by decide) rfl haddress (by decide) ⟨gridElement, .head _, .refl⟩ hindexed rfl hrange
    hvalues
  exact ⟨x, hx, hinstr, w, hw, hloads, hbytes⟩

end Lower

end MiniC
