/-
  MiniC.Proofs.Relabelling.Ahead

  **A function declared ahead only takes another place in the table.**

  A declaration of a function that comes before all its other heads enters the
  function earlier, and those entered in between are one place further on
  (`ahead`).  Until its first other head the function is hidden: only the
  table with the declaration knows it, and since the program was accepted
  without it nothing in between asks for it (`item_pending`).  With that head
  nothing is hidden any more (`item_settled`), and the programs are the same up
  to the places of functions.  A declaration that comes later changes nothing
  at all.  Either way the module stays (`program_declared`).
-/
import MiniC.Proofs.Checking.Functions
import MiniC.Proofs.Relabelling.Modules

namespace MiniC

/-! ## §1. Names at the top of a program -/

/-- The name that an item declares. -/
def Outline.Item.name? : Outline.Item → Option String
  | .imported sig _ => some sig.name
  | .function sig _ => some sig.name
  | .global d => some d.name
  | .broken _ => none

/-- An item with a head has the name in it. -/
theorem Outline.name?_of_head? {i : Outline.Item} {head : Head} (h : i.head? = some head) :
    i.name? = some head.name := by
  cases i with
  | imported sig fault =>
    cases h
    rfl
  | function sig body => cases body <;> cases h <;> rfl
  | global d => cases h
  | broken f => cases h

namespace Check

variable {found : Found} {sig : Outline.Signature} {tys : List Ty} {env : Env}

/-- The global frame keeps what it says, and says what one more name means, if
it did not. -/
structure Binds (x : String) (b : Binding) (outer outer' : Frame) : Prop where
  keeps : ∀ {y c}, outer.lookup y = some c → outer'.lookup y = some c
  bound : outer'.lookup x = some b
  others : ∀ {y}, y ≠ x → outer.lookup y = none → outer'.lookup y = none

/-- Outside of blocks, a new name goes to the global frame. -/
theorem binds_of_add {s s' : Scope} {x : String} {b : Binding} (hinner : s.inner = [])
    (h : s.add x b = .ok s') : Binds x b s.outer s'.outer := by
  obtain ⟨_, houter, hnone⟩ := Scope.add_outer hinner h
  rw [houter]
  refine ⟨Scope.lookup_cons_of_lookup hnone, List.lookup_cons_self, fun {y} hne hy => ?_⟩
  rw [List.lookup_cons, beq_eq_false_iff_ne.2 hne]
  exact hy

/-- What is declared is bound to its name, among the globals. -/
theorem binds_of_declareFunction (hok : found.Ok) {f : FuncId}
    (h : declareFunction found.env sig tys = .ok (f, env)) :
    Binds sig.name (.func f) found.env.scope.outer env.scope.outer := by
  obtain hnew | ⟨rfl, hget, _⟩ := declareFunction_eq_ok h
  · exact binds_of_add hok.scope.inner (newFunction_eq_ok hnew).2.2
  · rw [Scope.get?_of_inner hok.scope.inner] at hget
    exact ⟨id, hget, fun _ => id⟩

/-- A name that is not known is entered. -/
theorem newFunction_of_lookup {sym : FuncSymbol} (hinner : env.scope.inner = [])
    (hnone : env.scope.outer.lookup sym.name = none) :
    newFunction env sym = .ok (env.symbols.nextFunc,
      ⟨⟨[], (sym.name, .func env.symbols.nextFunc) :: env.scope.outer⟩,
        env.symbols.withFunc sym⟩) := by
  obtain ⟨⟨inner, outer⟩, Γ⟩ := env
  cases hinner
  rw [Relabelling.newFunction_eq, Relabelling.add_global hnone]

/-- A name not taken is declared in the next row. -/
theorem declareFunction_of_lookup (hinner : env.scope.inner = [])
    (hnone : env.scope.outer.lookup sig.name = none) :
    declareFunction env sig tys = .ok (env.symbols.nextFunc,
      ⟨⟨[], (sig.name, .func env.symbols.nextFunc) :: env.scope.outer⟩,
        env.symbols.withFunc ⟨sig.name, sig.ret, tys, .declared, sig.line⟩⟩) := by
  unfold declareFunction
  rw [Scope.get?_of_inner hinner, hnone]
  exact newFunction_of_lookup hinner hnone

/-- A function that is known and not the host's may be declared again. -/
theorem declareFunction_again {f : FuncId} {sym : FuncSymbol}
    (hget : env.scope.get? sig.name = some (.func f)) (hf : env.symbols.func? f = some sym)
    (himp : sym.state ≠ .imported) (hret : sym.ret = sig.ret) (hparams : sym.params = tys) :
    declareFunction env sig tys = .ok (f, env) := by
  unfold declareFunction
  rw [hget]
  dsimp only
  rw [hf]
  dsimp only
  rw [if_neg himp, if_pos ⟨hret, hparams⟩]

/-- **What an item declares is known from then on.**  A head of a function that
was not known enters it. -/
theorem ItemChecked.binds {found' : Found} {i : Outline.Item} (h : ItemChecked found i found')
    (hok : found.Ok) : ∃ x b, i.name? = some x ∧
      Binds x b found.env.scope.outer found'.env.scope.outer ∧
      (i.head? = none → ∃ v, b = .var v) ∧
      (i.head?.isSome = true → found.env.scope.outer.lookup x = none →
        b = .func found.env.symbols.nextFunc) := by
  have hnew {sig : Outline.Signature} {tys : List Ty} {f : FuncId} {env : Env}
      (hdecl : declareFunction found.env sig tys = .ok (f, env))
      (hnone : found.env.scope.outer.lookup sig.name = none) :
      Binding.func f = .func found.env.symbols.nextFunc := by
    rw [declareFunction_of_lookup hok.scope.inner hnone] at hdecl
    cases hdecl
    rfl
  cases h with
  | @imported sig tys f env hsig hnew =>
    obtain ⟨rfl, _, hadd⟩ := newFunction_eq_ok hnew
    exact ⟨sig.name, _, rfl, binds_of_add hok.scope.inner hadd, nofun, fun _ _ => rfl⟩
  | @declared sig tys f env hsig hdecl =>
    exact ⟨sig.name, _, rfl, binds_of_declareFunction hok hdecl, nofun, fun _ => hnew hdecl⟩
  | @defined sig tys f env env' body g hsig hdecl hbody =>
    obtain ⟨rfl, hne⟩ := signature_eq_ok hsig
    obtain ⟨hstep, sym, hf, hname, hret, hparams, _⟩ := declareFunction_step hok hne hdecl
    obtain ⟨_, ⟨hscope, _⟩, _⟩ :=
      functionBody_wellFormed hstep.ok hf hname hret hparams (hparams ▸ hne) hbody
    refine ⟨sig.name, .func f, rfl, ?_, nofun, fun _ => hnew hdecl⟩
    show Binds _ _ _ env'.scope.outer
    rw [hscope]
    exact binds_of_declareFunction hok hdecl
  | @global d v init st value hdecl _ =>
    obtain ⟨ty, _, _, hdeclare⟩ := declaration_eq_ok hdecl
    obtain ⟨_, _, hadd, _⟩ := declare_eq_ok hdeclare
    exact ⟨d.name, _, rfl, binds_of_add hok.scope.inner hadd, fun _ => ⟨v, rfl⟩, nofun⟩

/-- A run over items keeps what the global frame says. -/
theorem lookup_of_items {is : List Outline.Item} {found' : Found} (hok : found.Ok)
    (h : items found is = .ok found') {x : String} {b : Binding}
    (hx : found.env.scope.outer.lookup x = some b) : found'.env.scope.outer.lookup x = some b := by
  induction is generalizing found with
  | nil =>
    cases h
    exact hx
  | cons i is ih =>
    obtain ⟨found₁, hi, h⟩ := bind_eq_ok.1 h
    obtain ⟨_, _, _, hbinds, _⟩ := (itemChecked_of_item hi).binds hok
    exact ih (item_step hok hi).ok h (hbinds.keeps hx)

end Check

namespace Relabelling

open Check

variable {φ : Relabelling} {H : Hidden} {found found' : Found}
variable {found₁ : Found} {sig : Outline.Signature}

/-! ## §2. Items that nothing hidden is named like -/

/-- A function of an item is known once the item is checked. -/
theorem isSome_of_itemChecked {body : Outline.Body} (hok : found.Ok)
    (h : ItemChecked found (.function sig body) found₁)
    (hget : found.env.scope.get? sig.name = none) :
    (found₁.env.symbols.func? found.env.symbols.nextFunc).isSome = true := by
  have hnew {tys : List Ty} {f : FuncId} {env : Env}
      (hdecl : declareFunction found.env sig tys = .ok (f, env)) :
      ∃ sym, env.symbols.func? found.env.symbols.nextFunc = some sym := by
    unfold declareFunction at hdecl
    rw [hget] at hdecl
    obtain ⟨_, hsym, _⟩ := newFunction_eq_ok hdecl
    rw [hsym]
    exact ⟨_, Symbols.func?_withFunc_nextFunc _ _⟩
  cases h with
  | declared hsig hdecl => exact Option.isSome_iff_exists.2 (hnew hdecl)
  | @defined _ tys f env env' body g hsig hdecl hbody =>
    obtain ⟨rfl, hne⟩ := signature_eq_ok hsig
    obtain ⟨sym, hsym⟩ := hnew hdecl
    obtain ⟨hstep, symf, hf, hname, hret, hparams, himp⟩ := declareFunction_step hok hne hdecl
    have hbodystep :=
      functionBody_step hstep.ok hf hname hret hparams himp (hparams ▸ hne) hbody
    obtain ⟨sym', hsym', _⟩ := hbodystep.symbols.func hsym
    exact Option.isSome_iff_exists.2 ⟨sym', hsym'⟩

/-- **An item that declares nothing hidden is checked alike**, if a function it
enters takes the place that it should. -/
theorem item_follows_of_name (h : φ.Founds H found found') (hok : found.Ok) {i : Outline.Item}
    (hi : Check.item found i = .ok found₁) (hx : ∀ x ∈ i.name?, x ∉ H)
    (hnext : (found₁.env.symbols.func? found.env.symbols.nextFunc).isSome = true →
      φ.func found.env.symbols.nextFunc = found'.env.symbols.nextFunc) :
    ∃ found₁', Check.item found' (φ.item i) = .ok found₁' ∧ φ.Founds H found₁ found₁' := by
  have hchecked := itemChecked_of_item hi
  have hfollows : φ.Follows False (φ.Founds H) (Check.item found i)
      (Check.item found' (φ.item i)) := by
    cases i with
    | imported sig fault =>
      refine importItem_follows h fault (hx sig.name rfl) (hnext ?_)
      cases hchecked with
      | imported _ hnew =>
        obtain ⟨_, hsym, _⟩ := newFunction_eq_ok hnew
        dsimp only
        rw [hsym, Symbols.func?_withFunc_nextFunc]
        rfl
    | function sig body =>
      refine functionItem_follows h False.elim body fun tys _ => ?_
      refine declareFunction_follows h.env False.elim tys (hx sig.name rfl) fun hget => ?_
      exact hnext (isSome_of_itemChecked hok hchecked hget)
    | global d => exact globalItem_follows h False.elim (hx d.name rfl)
    | broken f => cases hi
  exact hfollows.ok hi

/-! ## §3. Places -/

/-- Where the function at place `n` is found if the one at place `m` is
declared when `k` functions are known. -/
def aheadIndex (k m n : Nat) : Nat :=
  if n = m then k else if k ≤ n ∧ n < m then n + 1 else n

theorem aheadIndex_injective {k m : Nat} (h : k ≤ m) : Function.Injective (aheadIndex k m) := by
  intro n n' heq
  unfold aheadIndex at heq
  split_ifs at heq <;> omega

/-- Functions move to make room for one that is declared ahead, and lines are
forgotten. -/
def ahead {k m : Nat} (h : k ≤ m) : Relabelling where
  name := .refl _
  line _ := 0
  func := ⟨fun f => ⟨aheadIndex k m f.index⟩, fun _ _ heq =>
    congrArg FuncId.mk (aheadIndex_injective h (congrArg FuncId.index heq))⟩

section

variable {k m : Nat} (hkm : k ≤ m)
variable {n : Nat}

theorem func_ahead_of_lt (hn : n < k) : (ahead hkm).func ⟨n⟩ = ⟨n⟩ := by
  show FuncId.mk (aheadIndex k m n) = _
  rw [aheadIndex, if_neg (by omega), if_neg (by omega)]

theorem func_ahead_of_le (hk : k ≤ n) (hn : n < m) : (ahead hkm).func ⟨n⟩ = ⟨n + 1⟩ := by
  show FuncId.mk (aheadIndex k m n) = _
  rw [aheadIndex, if_neg (by omega), if_pos ⟨hk, hn⟩]

theorem func_ahead_self : (ahead hkm).func ⟨m⟩ = ⟨k⟩ := by
  show FuncId.mk (aheadIndex k m m) = _
  rw [aheadIndex, if_pos rfl]

theorem func_ahead_of_gt (hn : m < n) : (ahead hkm).func ⟨n⟩ = ⟨n⟩ := by
  show FuncId.mk (aheadIndex k m n) = _
  rw [aheadIndex, if_neg (by omega), if_neg (by omega)]

end

/-! ## §4. Before the declaration -/

theorem index_nextFunc_lt {Γ Γ' : Symbols} (h : (Γ'.func? Γ.nextFunc).isSome = true) :
    Γ.funcs.size < Γ'.funcs.size := by
  obtain ⟨sym, hsym⟩ := Option.isSome_iff_exists.1 h
  exact index_lt_of_func? hsym

theorem size_le_of_extends {Γ Γ' : Symbols} (h : Γ.Extends Γ') : Γ.funcs.size ≤ Γ'.funcs.size := by
  by_contra hlt
  obtain ⟨sym, hsym⟩ := exists_func? (Nat.lt_of_not_le hlt)
  obtain ⟨sym', hsym', _⟩ := h.func hsym
  exact absurd (index_lt_of_func? hsym') (Nat.lt_irrefl _)

theorem name?_item (φ : Relabelling) (i : Outline.Item) :
    (φ.item i).name? = i.name?.map φ.name := by
  cases i <;> rfl

/-- **As long as a name is not declared, items are checked alike**, if no
function moves, and the name stays unknown. -/
theorem items_before {x : String} {is : List Outline.Item} (hok : found.Ok) (hok' : found'.Ok)
    (h : φ.Founds ⟨{x}, []⟩ found found') (his : Check.items found is = .ok found₁)
    (hnone : found₁.env.scope.outer.lookup x = none)
    (hnone' : found'.env.scope.outer.lookup (φ.name x) = none)
    (hplace : ∀ n < found₁.env.symbols.funcs.size, φ.func ⟨n⟩ = ⟨n⟩) :
    ∃ found₁', Check.items found' (is.map φ.item) = .ok found₁' ∧
      φ.Founds ⟨{x}, []⟩ found₁ found₁' ∧
      found₁'.env.scope.outer.lookup (φ.name x) = none := by
  induction is generalizing found found' with
  | nil =>
    cases his
    exact ⟨found', rfl, h, hnone'⟩
  | cons i is ih =>
    obtain ⟨found₂, hi, his⟩ := bind_eq_ok.1 his
    have hok₂ := (item_step hok hi).ok
    obtain ⟨y, b, hy, hbinds, _⟩ := (itemChecked_of_item hi).binds hok
    -- an item with that name would bind it, and it is not bound in the end
    have hne : ∀ z ∈ i.name?, z ∉ (⟨{x}, []⟩ : Hidden) := by
      rintro z hz rfl
      rw [hy] at hz
      cases hz
      rw [lookup_of_items hok₂ his hbinds.bound] at hnone
      cases hnone
    obtain ⟨found₂', hi', h₂⟩ := item_follows_of_name h hok hi hne fun hnew => by
      have hlt := index_nextFunc_lt hnew
      have hle := size_le_of_extends (items_step hok₂ his).symbols
      show φ.func ⟨found.env.symbols.funcs.size⟩ = ⟨found'.env.symbols.funcs.size⟩
      rw [hplace _ (Nat.lt_of_lt_of_le hlt hle), h.env.table.size]
      rfl
    obtain ⟨y', b', hy', hbinds', _⟩ := (itemChecked_of_item hi').binds hok'
    have hne' : φ.name x ≠ y' := by
      rintro rfl
      rw [name?_item, hy] at hy'
      exact hne y hy (φ.name.injective (Option.some.inj hy'))
    obtain ⟨found₁', his', h₁⟩ :=
      ih hok₂ (item_step hok' hi').ok h₂ his (hbinds'.others hne' hnone')
    exact ⟨found₁', bind_eq_ok.2 ⟨found₂', hi', his'⟩, h₁⟩

/-! ## §5. Between the declaration and the first head -/

section

variable {k m : Nat} {hkm : k ≤ m} {decl : FuncSymbol}
variable {last : Found} {sym : FuncSymbol}

/-- **The declaration enters a hidden function.** -/
theorem envs_pending {env env' : Env} (hinner : env.scope.inner = [])
    (h : (ahead hkm).Envs ⟨{decl.name}, []⟩ env env') (hk : env.symbols.funcs.size = k)
    (hnone : env'.scope.outer.lookup decl.name = none) :
    (ahead hkm).Envs ⟨{decl.name}, [(⟨k⟩, decl)]⟩ env
      ⟨⟨[], (decl.name, .func env'.symbols.nextFunc) :: env'.scope.outer⟩,
        env'.symbols.withFunc decl⟩ := by
  have hsize : env'.symbols.funcs.size = k := h.table.size.trans hk
  have hnext : env'.symbols.nextFunc = ⟨k⟩ := congrArg FuncId.mk hsize
  refine ⟨⟨?_, fun {x b} hx => ?_, fun {x} hx hx' => ?_⟩, h.vars,
    fun hf => Symbols.func?_withFunc (h.funcs hf), ?_, fun r hr => ?_, fun hempty => ?_⟩
  · rw [hinner, List.map_nil]
  · exact Scope.lookup_cons_of_lookup hnone (h.scope.outer hx)
  · have hne : x ≠ decl.name := hx
    show List.lookup x ((decl.name, _) :: env'.scope.outer) = none
    rw [List.lookup_cons, beq_eq_false_iff_ne.2 hne]
    exact h.scope.fresh hx hx'
  · show (env'.symbols.funcs.rows.push _).size = env.symbols.funcs.size + 1
    rw [Array.size_push, hk]
    exact congrArg (· + 1) hsize
  · obtain rfl := List.mem_singleton.1 hr
    refine ⟨?_, fun {f} hf => ?_⟩
    · rw [← hnext]
      exact Symbols.func?_withFunc_nextFunc _ _
    · -- the functions that are known stay before the new place
      obtain ⟨sym, hsym⟩ := Option.isSome_iff_exists.1 hf
      have hlt : f.index < k := hk ▸ index_lt_of_func? hsym
      rw [func_ahead_of_lt hkm hlt]
      exact fun heq => absurd (congrArg FuncId.index heq) (Nat.ne_of_lt hlt)
  · cases congrArg Hidden.rows hempty

/-- **Nothing but the declaration knows its name.** -/
theorem lookup_of_pending (hok : found.Ok) (hok' : found'.Ok)
    (h : (ahead hkm).Founds ⟨{decl.name}, [(⟨k⟩, decl)]⟩ found found') :
    found.env.scope.outer.lookup decl.name = none := by
  obtain ⟨hrow, hapart⟩ := h.env.table.hidden _ List.mem_cons_self
  have hlookup' := hok'.scope.names hrow
  cases hlookup : found.env.scope.outer.lookup decl.name with
  | none => rfl
  | some b =>
    have hsame : found'.env.scope.outer.lookup decl.name = some ((ahead hkm).binding b) :=
      h.env.scope.outer hlookup
    rw [hlookup'] at hsame
    cases b with
    | var v => cases hsame
    | func g =>
      obtain ⟨sym, hg, _⟩ := hok.scope.funcs (mem_of_lookup hlookup)
      have hplace : (ahead hkm).func g = ⟨k⟩ := (Binding.func.inj (Option.some.inj hsame)).symm
      exact absurd hplace (hapart (Option.isSome_iff_exists.2 ⟨sym, hg⟩))

/-- The function takes its place in the end, and the table is not that long
yet. -/
theorem size_le_of_pending {x : String} (hok : found.Ok)
    (hnone : found.env.scope.outer.lookup x = none)
    (hext : found.env.symbols.Extends last.env.symbols)
    (hsym : last.env.symbols.func? ⟨m⟩ = some sym) (hname : sym.name = x) :
    found.env.symbols.funcs.size ≤ m := by
  by_contra hlt
  obtain ⟨sym', hsym'⟩ := exists_func? (Nat.lt_of_not_le hlt)
  obtain ⟨sym'', hsym'', hname', _⟩ := hext.func hsym'
  rw [hsym] at hsym''
  cases hsym''
  have hlookup := hok.scope.names hsym'
  rw [← hname', hname, hnone] at hlookup
  cases hlookup

/-- **Until the first head, an item is checked alike.** -/
theorem item_pending (hok : found.Ok) (hok' : found'.Ok)
    (h : (ahead hkm).Founds ⟨{decl.name}, [(⟨k⟩, decl)]⟩ found found') {i : Outline.Item}
    {found₁ : Found} (hi : Check.item found i = .ok found₁) (hx : i.name? ≠ some decl.name)
    (hext : found₁.env.symbols.Extends last.env.symbols)
    (hsym : last.env.symbols.func? ⟨m⟩ = some sym) (hname : sym.name = decl.name) :
    ∃ found₁', Check.item found' ((ahead hkm).item i) = .ok found₁' ∧
      (ahead hkm).Founds ⟨{decl.name}, [(⟨k⟩, decl)]⟩ found₁ found₁' := by
  have hstep := item_step hok hi
  obtain ⟨x, b, hx', hbinds, _⟩ := (itemChecked_of_item hi).binds hok
  rw [hx'] at hx
  have hnone := lookup_of_pending hok hok' h
  have hnone₁ := hbinds.others (fun heq => hx (congrArg some heq.symm)) hnone
  refine item_follows_of_name h hok hi ?_ fun hnew => ?_
  · rintro y hy rfl
    rw [hx'] at hy
    exact hx hy
  · -- the new function is not the one declared, so it comes before its place
    have hle := size_le_of_pending hstep.ok hnone₁ hext hsym hname
    have hlt := index_nextFunc_lt hnew
    have hk : k < found'.env.symbols.funcs.size :=
      index_lt_of_func? (h.env.table.hidden _ List.mem_cons_self).1
    have hsize : found'.env.symbols.funcs.size = found.env.symbols.funcs.size + 1 :=
      h.env.table.size
    show (ahead hkm).func ⟨found.env.symbols.funcs.size⟩ = ⟨found'.env.symbols.funcs.size⟩
    rw [func_ahead_of_le hkm (by omega) (by omega), hsize]

/-! ## §6. The first head -/

/-- **With the first head nothing is hidden any more.** -/
theorem envs_settled {env env' : Env} (hinner : env.scope.inner = [])
    (h : (ahead hkm).Envs ⟨{decl.name}, [(⟨k⟩, decl)]⟩ env env')
    (hplace : env.symbols.funcs.size = m)
    (hlookup : env'.scope.outer.lookup decl.name = some (.func ⟨k⟩))
    (hsym : decl = (ahead hkm).funcSymbol sym) :
    (ahead hkm).Envs ∅
      ⟨⟨[], (sym.name, .func env.symbols.nextFunc) :: env.scope.outer⟩, env.symbols.withFunc sym⟩
      env' := by
  have hname : decl.name = sym.name := by rw [hsym]; rfl
  have hnext : (ahead hkm).func env.symbols.nextFunc = ⟨k⟩ := by
    show (ahead hkm).func ⟨env.symbols.funcs.size⟩ = _
    rw [hplace, func_ahead_self]
  refine ⟨⟨?_, fun {x b} hx => ?_, fun {x} _ hx => ?_⟩, h.vars, fun {f sym'} hf => ?_, ?_, nofun,
    fun _ {f} hf => ?_⟩
  · rw [h.scope.inner, hinner, List.map_nil]
  · rw [List.lookup_cons] at hx
    split at hx <;> rename_i hxname
    · -- the new name is what the other side has had all along
      cases hx
      rw [eq_of_beq hxname, ← hname]
      show env'.scope.outer.lookup decl.name = some (.func _)
      rw [hnext, hlookup]
    · exact h.scope.outer hx
  · rw [List.lookup_cons] at hx
    split at hx <;> rename_i hxname
    · cases hx
    · refine h.scope.fresh ?_ hx
      rintro rfl
      rw [hname, beq_self_eq_true] at hxname
      cases hxname
  · rcases Symbols.func?_of_withFunc hf with hf | ⟨rfl, rfl⟩
    · exact h.funcs hf
    · rw [hnext, ← hsym]
      exact (h.table.hidden _ List.mem_cons_self).1
  · show env'.symbols.funcs.size = (env.symbols.funcs.rows.push _).size + 0
    rw [Array.size_push]
    exact h.table.size
  · -- a handle without a row is beyond all that moves
    have hbeyond : m < f.index := by
      by_contra hle
      have hlt : f.index < (env.symbols.withFunc sym).funcs.size := by
        have hsize : env.symbols.funcs.rows.size = m := hplace
        show f.index < (env.symbols.funcs.rows.push _).size
        rw [Array.size_push, hsize]
        exact Nat.lt_succ_of_le (Nat.le_of_not_lt hle)
      obtain ⟨sym', hsym'⟩ := exists_func? hlt
      rw [hf] at hsym'
      cases hsym'
    exact func_ahead_of_gt hkm hbeyond

/-- **The first head is checked alike.** -/
theorem item_settled (hok : found.Ok) (hok' : found'.Ok)
    (h : (ahead hkm).Founds ⟨{decl.name}, [(⟨k⟩, decl)]⟩ found found') {sig : Outline.Signature}
    {body : Outline.Body} {found₁ : Found}
    (hi : Check.item found (.function sig body) = .ok found₁)
    (hplace : found.env.symbols.funcs.size = m)
    (hdecl : decl = ⟨sig.name, sig.ret, sig.params.map (·.ty), .declared, 0⟩) :
    ∃ found₁', Check.item found' ((ahead hkm).item (.function sig body)) = .ok found₁' ∧
      (ahead hkm).Founds ∅ found₁ found₁' := by
  have hnone := lookup_of_pending hok hok' h
  have hrow := (h.env.table.hidden _ List.mem_cons_self).1
  have hlookup := hok'.scope.names hrow
  have hname : decl.name = sig.name := by rw [hdecl]
  have hfollows : (ahead hkm).Follows False ((ahead hkm).Founds ∅) (functionItem found sig body)
      (functionItem found' ((ahead hkm).signature sig) ((ahead hkm).body body)) := by
    refine functionItem_follows h (fun _ => rfl) body fun tys hsig => ?_
    obtain ⟨rfl, _⟩ := signature_eq_ok hsig
    rw [hname] at hnone
    have hget : found'.env.scope.get? ((ahead hkm).signature sig).name = some (.func ⟨k⟩) := by
      rw [Scope.get?_of_inner hok'.scope.inner]
      show found'.env.scope.outer.lookup sig.name = _
      rw [← hname]
      exact hlookup
    rw [declareFunction_of_lookup hok.scope.inner hnone,
      declareFunction_again hget hrow (by rw [hdecl]; nofun) (by rw [hdecl]; rfl) (by rw [hdecl])]
    refine .pure ⟨?_, ?_, ?_⟩
    · show (⟨k⟩ : FuncId) = (ahead hkm).func ⟨found.env.symbols.funcs.size⟩
      rw [hplace, func_ahead_self]
    · have hsym : decl = (ahead hkm).funcSymbol
          ⟨sig.name, sig.ret, sig.params.map (·.ty), .declared, sig.line⟩ := hdecl
      exact envs_settled hok.scope.inner h.env hplace hlookup hsym
    · exact Option.isSome_iff_exists.2 ⟨_, Symbols.func?_withFunc_nextFunc _ _⟩
  exact hfollows.ok hi

/-- **From the declaration on, the items are checked alike**, and in the end
nothing is hidden. -/
theorem items_pending {is : List Outline.Item} (hok : found.Ok) (hok' : found'.Ok)
    (h : (ahead hkm).Founds ⟨{decl.name}, [(⟨k⟩, decl)]⟩ found found')
    (his : Check.items found is = .ok last) (hsym : last.env.symbols.func? ⟨m⟩ = some sym)
    (hname : sym.name = decl.name)
    (hheads : ∀ head ∈ Outline.heads is, head.name = decl.name →
      head.state ≠ .imported ∧ decl = ⟨head.name, head.ret, head.params, .declared, 0⟩) :
    ∃ last', Check.items found' (is.map (ahead hkm).item) = .ok last' ∧
      (ahead hkm).Founds ∅ last last' := by
  induction is generalizing found found' with
  | nil =>
    cases his
    -- the name is bound in the end, but it is not bound as long as it is hidden
    have hlookup := hok.scope.names hsym
    rw [hname, lookup_of_pending hok hok' h] at hlookup
    cases hlookup
  | cons i is ih =>
    obtain ⟨found₁, hi, hlater⟩ := bind_eq_ok.1 his
    have hstep := item_step hok hi
    have hext := (items_step hstep.ok hlater).symbols
    rw [Outline.heads_cons] at hheads
    by_cases hx : i.name? = some decl.name
    · -- the first head: the function is entered where it is found in the end
      obtain ⟨x, b, hx', hbinds, hvar, hfunc⟩ := (itemChecked_of_item hi).binds hok
      rw [hx] at hx'
      cases hx'
      have hbound := lookup_of_items hstep.ok hlater hbinds.bound
      have hlookup := (items_step hstep.ok hlater).ok.scope.names hsym
      rw [hname, hbound] at hlookup
      cases hhead : i.head? with
      | none =>
        obtain ⟨v, rfl⟩ := hvar hhead
        cases hlookup
      | some head =>
        have hmem : head ∈ i.head?.toList ++ Outline.heads is := by
          rw [hhead]
          exact List.mem_cons_self
        have hheadname := (Outline.name?_of_head? hhead).symm.trans hx
        obtain ⟨himp, hdecl⟩ := hheads head hmem (Option.some.inj hheadname)
        have hplace : found.env.symbols.funcs.size = m := by
          rw [hfunc (by rw [hhead]; rfl) (lookup_of_pending hok hok' h)] at hlookup
          exact congrArg FuncId.index (Binding.func.inj (Option.some.inj hlookup))
        cases i with
        | function sig body =>
          have hdecl' : decl = ⟨sig.name, sig.ret, sig.params.map (·.ty), .declared, 0⟩ := by
            rw [hdecl]
            cases body <;> cases hhead <;> rfl
          obtain ⟨found₁', hi', h₁⟩ := item_settled hok hok' h hi hplace hdecl'
          have hrest : (ahead hkm).Follows False _ _ _ := items_follows h₁ is
          obtain ⟨last', his', hlast⟩ := hrest.ok hlater
          exact ⟨last', bind_eq_ok.2 ⟨found₁', hi', his'⟩, hlast⟩
        | imported sig fault =>
          cases hhead
          exact absurd rfl himp
        | global d => cases hhead
        | broken f => cases hhead
    · -- another item, after which the name is hidden still
      obtain ⟨found₁', hi', h₁⟩ := item_pending hok hok' h hi hx hext hsym hname
      obtain ⟨last', his', hlast⟩ := ih hstep.ok (item_step hok' hi').ok h₁ hlater
        fun head hhead => hheads head (List.mem_append_right _ hhead)
      exact ⟨last', bind_eq_ok.2 ⟨found₁', hi', his'⟩, hlast⟩

end

/-! ## §7. Programs -/

/-- Items are checked in order. -/
theorem items_append (found : Found) (is is' : List Outline.Item) :
    Check.items found (is ++ is') = Check.items found is >>= fun f => Check.items f is' := by
  induction is generalizing found with
  | nil => rfl
  | cons i is ih =>
    show (Check.item found i >>= fun f => Check.items f (is ++ is')) =
      (Check.item found i >>= fun f => Check.items f is) >>= fun f => Check.items f is'
    rw [bind_assoc]
    exact bind_congr fun f => ih f

/-- Runs over the parts of a list of items are a run over the list. -/
theorem items_around {is is' : List Outline.Item} {i : Outline.Item} {found₂ last : Found}
    (h : Check.items found is = .ok found₁) (hi : Check.item found₁ i = .ok found₂)
    (h' : Check.items found₂ is' = .ok last) : Check.items found (is ++ i :: is') = .ok last := by
  rw [items_append]
  exact bind_eq_ok.2 ⟨found₁, h, bind_eq_ok.2 ⟨found₂, hi, h'⟩⟩

/-- A head without a body only declares its function. -/
theorem item_declared {tys : List Ty} {f : FuncId} {env : Env}
    (hsig : Check.signature sig = .ok tys)
    (hdecl : declareFunction found.env sig tys = .ok (f, env)) :
    Check.item found (.function sig .none) = .ok { found with env := env } := by
  show functionItem found sig .none = _
  rw [functionItem, hsig]
  show (declareFunction found.env sig tys >>= _) = _
  rw [hdecl]
  rfl

/-- Parameters with values pass, each with its type. -/
theorem params_of_valued {ps : List Outline.Param} (h : ∀ ty ∈ ps.map (·.ty), ty ≠ .void) :
    Check.params ps = .ok (ps.map (·.ty)) := by
  induction ps with
  | nil => rfl
  | cons p ps ih =>
    obtain ⟨hp, hps⟩ := List.forall_mem_cons.1 h
    rw [Check.params, if_neg hp, ih hps]
    rfl

/-- A program that defines a function, and another head for the function to be
put at some place. -/
structure Declarable (is₁ is₂ : List Outline.Item) (sig : Outline.Signature)
    (found₁ last : Found) : Prop where
  before : Check.items {} is₁ = .ok found₁
  after : Check.items found₁ is₂ = .ok last
  whole : sig.fault = none
  known : sig.head .defined ∈ Outline.heads is₁ ++ Outline.heads is₂

namespace Declarable

variable {is₁ is₂ : List Outline.Item} {sig : Outline.Signature} {found₁ last : Found}

theorem ok_before (h : Declarable is₁ is₂ sig found₁ last) : found₁.Ok :=
  (items_step Found.ok_empty h.before).ok

theorem ok_after (h : Declarable is₁ is₂ sig found₁ last) : last.Ok :=
  (items_step h.ok_before h.after).ok

theorem records_before (h : Declarable is₁ is₂ sig found₁ last) :
    found₁.Records (Outline.heads is₁) :=
  items_records Found.ok_empty Found.records_empty h.before

theorem records_after (h : Declarable is₁ is₂ sig found₁ last) :
    last.Records (Outline.heads is₁ ++ Outline.heads is₂) :=
  items_records h.ok_before h.records_before h.after

/-- The function has a row in the end, and the row says what the head does. -/
theorem row (h : Declarable is₁ is₂ sig found₁ last) :
    ∃ f sym, last.env.symbols.func? f = some sym ∧ sym.name = sig.name ∧ sym.ret = sig.ret ∧
      sym.params = sig.params.map (·.ty) ∧ sym.state ≠ .imported := by
  have hrec := h.records_after.rows
  obtain ⟨f, sym, hf, hname⟩ := hrec.mem_names.1 (List.mem_map_of_mem h.known)
  obtain ⟨hret, hparams, himp⟩ := hrec.agrees hf _ h.known hname.symm
  exact ⟨f, sym, hf, hname, hret.symm, hparams.symm, fun hi => nomatch himp.2 hi⟩

/-- All heads of the function agree. -/
theorem heads (h : Declarable is₁ is₂ sig found₁ last) {head : Head}
    (hhead : head ∈ Outline.heads is₁ ++ Outline.heads is₂) (hname : head.name = sig.name) :
    head.ret = sig.ret ∧ head.params = sig.params.map (·.ty) ∧ head.state ≠ .imported := by
  obtain ⟨f, sym, hf, hsym, hret, hparams, himp⟩ := h.row
  obtain ⟨hret', hparams', himp'⟩ :=
    h.records_after.rows.agrees hf head hhead (hname.trans hsym.symm)
  exact ⟨hret'.trans hret, hparams'.trans hparams, fun hi => himp (himp'.1 hi)⟩

/-- The head passes its check. -/
theorem signature_ok (h : Declarable is₁ is₂ sig found₁ last) (φ : Relabelling) :
    Check.signature (φ.signature sig) = .ok (sig.params.map (·.ty)) := by
  obtain ⟨f, sym, hf, _, _, hparams, _⟩ := h.row
  have hvalued : ∀ ty ∈ sig.params.map (·.ty), ty ≠ .void := by
    rw [← hparams]
    exact h.ok_after.valued.func hf
  have hsig : Check.signature sig = .ok (sig.params.map (·.ty)) := by
    rw [Check.signature, params_of_valued hvalued, h.whole]
    rfl
  have hfollows : φ.Follows False _ _ _ := signature_follows sig
  obtain ⟨_, hsig', rfl⟩ := hfollows.ok hsig
  exact hsig'

/-- **A function that is known may be declared again.** -/
theorem items_again (h : Declarable is₁ is₂ sig found₁ last) {b : Binding}
    (hb : found₁.env.scope.outer.lookup sig.name = some b) :
    ∃ last', Check.items {} (is₁.map lineless.item ++
        lineless.item (.function sig .none) :: is₂.map lineless.item) = .ok last' ∧
      lineless.Founds ∅ last last' := by
  obtain ⟨f, sym, hf, hname, hret, hparams, _⟩ := h.row
  -- the name keeps its meaning, so it is the function's already
  have hlookup := h.ok_after.scope.names hf
  rw [hname, lookup_of_items h.ok_before h.after hb] at hlookup
  obtain rfl : b = .func f := Option.some.inj hlookup
  obtain ⟨sym₁, hsym₁, hname₁⟩ := h.ok_before.scope.funcs (mem_of_lookup hb)
  obtain ⟨sym', hsym', _, hparams', hret'⟩ := (items_step h.ok_before h.after).symbols.func hsym₁
  rw [hf] at hsym'
  cases hsym'
  have himp : sym₁.state ≠ .imported := by
    have hrec := h.records_before.rows
    obtain ⟨head, hhead, hheadname⟩ := List.mem_map.1 (hrec.mem_names.2 ⟨f, sym₁, hsym₁, rfl⟩)
    have hstate := (hrec.agrees hsym₁ head hhead hheadname).2.2
    have hnot := (h.heads (List.mem_append_left _ hhead) (hheadname.trans hname₁)).2.2
    exact fun hi => hnot (hstate.2 hi)
  have hbefore : lineless.Follows False _ _ _ :=
    items_follows (founds_empty rfl fun _ _ => rfl) is₁
  obtain ⟨found₁', hbefore', h₁⟩ := hbefore.ok h.before
  have hafter : lineless.Follows False _ _ _ := items_follows h₁ is₂
  obtain ⟨last', hafter', hlast⟩ := hafter.ok h.after
  have hget : found₁.env.scope.get? sig.name = some (.func f) := by
    rw [Scope.get?_of_inner h.ok_before.scope.inner]
    exact hb
  have hdecl : declareFunction found₁'.env (lineless.signature sig) (sig.params.map (·.ty)) =
      .ok (f, found₁'.env) :=
    declareFunction_again (h₁.env.scope.get?_some hget) (h₁.env.funcs hsym₁) himp
      (hret'.symm.trans hret) (hparams'.symm.trans hparams)
  have hitem := item_declared (h.signature_ok lineless) hdecl
  exact ⟨last', items_around hbefore' hitem hafter', hlast⟩

/-- **A function that is not known may be declared ahead.** -/
theorem items_ahead (h : Declarable is₁ is₂ sig found₁ last)
    (hnone : found₁.env.scope.outer.lookup sig.name = none) :
    ∃ k m, ∃ hkm : k ≤ m, ∃ last', Check.items {} (is₁.map (ahead hkm).item ++
        (ahead hkm).item (.function sig .none) :: is₂.map (ahead hkm).item) = .ok last' ∧
      (ahead hkm).Founds ∅ last last' := by
  obtain ⟨⟨m⟩, sym, hf, hname, _⟩ := h.row
  let decl : FuncSymbol := ⟨sig.name, sig.ret, sig.params.map (·.ty), .declared, 0⟩
  have hext := (items_step h.ok_before h.after).symbols
  have hkm := size_le_of_pending h.ok_before hnone hext hf hname
  refine ⟨_, m, hkm, ?_⟩
  have hstart : (ahead hkm).Founds ⟨{decl.name}, []⟩ {} {} := founds_empty rfl fun hempty =>
    absurd (congrArg Hidden.names hempty) (Set.singleton_ne_empty _)
  obtain ⟨found₁', hbefore', h₁, hnone'⟩ := items_before Found.ok_empty Found.ok_empty hstart
    h.before hnone rfl fun n hn => func_ahead_of_lt hkm hn
  have hok₁' := (items_step Found.ok_empty hbefore').ok
  have hitem := item_declared (h.signature_ok (ahead hkm))
    (declareFunction_of_lookup hok₁'.scope.inner hnone')
  have henvs : (ahead hkm).Envs ⟨{decl.name}, [(⟨_⟩, decl)]⟩ found₁.env _ :=
    envs_pending h.ok_before.scope.inner h₁.env rfl hnone'
  obtain ⟨last', hafter', hlast⟩ := items_pending h.ok_before (item_step hok₁' hitem).ok
    ⟨henvs, h₁.items, h₁.imports⟩ h.after hf hname fun head hhead hheadname => by
      obtain ⟨hret, hparams, himp⟩ := h.heads (List.mem_append_right _ hhead) hheadname
      rw [hheadname, hret, hparams]
      exact ⟨himp, rfl⟩
  exact ⟨last', items_around hbefore' hitem hafter', hlast⟩

end Declarable

/-- **A program may declare its functions wherever it likes.**  Where the new
head is the first one functions change their places, so what the program is
relabelled by depends on it. -/
theorem program_declared {is₁ is₂ : List Outline.Item} {p : Program}
    (hp : Check.program (is₁ ++ is₂) = .ok p) (hwhole : sig.fault = none)
    (hknown : sig.head .defined ∈ Outline.heads (is₁ ++ is₂)) :
    ∃ φ : Relabelling, (∀ x, φ.name x = x) ∧ (∀ line, φ.line line = 0) ∧ ∃ p',
      Check.program (is₁.map φ.item ++ φ.item (.function sig .none) :: is₂.map φ.item) = .ok p' ∧
        Lower.program p' = Lower.program p := by
  obtain ⟨last, hitems, hp⟩ := bind_eq_ok.1 hp
  obtain ⟨_, hdefined, hp⟩ := bind_eq_ok.1 hp
  cases hp
  rw [items_append] at hitems
  obtain ⟨found₁, hbefore, hafter⟩ := bind_eq_ok.1 hitems
  rw [Outline.heads, List.filterMap_append] at hknown
  have h : Declarable is₁ is₂ sig found₁ last := ⟨hbefore, hafter, hwhole, hknown⟩
  -- where the functions are found does not matter to the rest
  have hfinish {φ : Relabelling} (hname : ∀ x, φ.name x = x) {is : List Outline.Item}
      {last' : Found} (hlast' : Check.items {} is = .ok last') (hfound : φ.Founds ∅ last last') :
      ∃ p', Check.program is = .ok p' ∧ Lower.program p' = Lower.program last.toProgram := by
    have hdefined' : φ.Follows False _ _ _ := allDefined_follows hfound.env False.elim
    obtain ⟨_, hdefined', _⟩ := hdefined'.ok hdefined
    refine ⟨last'.toProgram, ?_, program_eq hfound.programs ⟨fun _ => hname _, fun _ => hname _⟩⟩
    rw [Check.program, hlast']
    show (allDefined last'.env.symbols >>= fun _ => _) = _
    rw [hdefined']
    rfl
  cases hlookup : found₁.env.scope.outer.lookup sig.name with
  | some b =>
    obtain ⟨last', hlast', hfound⟩ := h.items_again hlookup
    exact ⟨lineless, fun _ => rfl, fun _ => rfl, hfinish (fun _ => rfl) hlast' hfound⟩
  | none =>
    obtain ⟨k, m, hkm, last', hlast', hfound⟩ := h.items_ahead hlookup
    exact ⟨ahead hkm, fun _ => rfl, fun _ => rfl, hfinish (fun _ => rfl) hlast' hfound⟩

end Relabelling

end MiniC
