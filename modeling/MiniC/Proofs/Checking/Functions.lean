/-
  MiniC.Proofs.Checking.Functions

  **The table of functions is closed.**

  A text may have the head of a function in several places: with the host's
  word, with nothing, or with a body (`Head`).  The table has one row for all
  heads of one name, entered at the first of them, and the row tells what the
  heads say: their types, whether they are the host's, and whether one of them
  has a body (`Symbols.Records`).  Each item keeps this, by one of three steps:
  a new row, a head more for a row, and a body.

  So heads that do not go together (`Clash`) are never accepted, and in the end
  every row is imported or has exactly one body (`Program.Closed`).
-/
import MiniC.Names
import MiniC.Proofs.Checking.Steps

namespace MiniC

variable {p : Program}

/-! ## §1. Heads in a text -/

/-- The head of a function in a text, and what comes with it. -/
structure Head where
  name : String
  ret : Ty
  params : List Ty
  /-- The host's, without a body, or with one. -/
  state : FuncState
  deriving DecidableEq, Repr

/-- The head gives a function of this name a body. -/
def Head.defines (x : String) (h : Head) : Bool := h.name = x ∧ h.state = .defined

/-- The head as it stands in a text. -/
def Outline.Signature.head (sig : Outline.Signature) (state : FuncState) : Head :=
  ⟨sig.name, sig.ret, sig.params.map (·.ty), state⟩

/-- The head of a function that an item has. -/
def Outline.Item.head? : Outline.Item → Option Head
  | .imported sig _ => some (sig.head .imported)
  | .function sig (.block _) => some (sig.head .defined)
  | .function sig _ => some (sig.head .declared)
  | .global _ | .broken _ => none

/-- The heads of functions in items, in order. -/
def Outline.heads (is : List Outline.Item) : List Head := is.filterMap Outline.Item.head?

theorem Outline.heads_cons (i : Outline.Item) (is : List Outline.Item) :
    Outline.heads (i :: is) = i.head?.toList ++ Outline.heads is := by
  rw [Outline.heads, List.filterMap_cons]
  cases i.head? <;> rfl

/-- The heads of functions in a text, in order. -/
def heads (text : String) : List Head := Outline.heads (Outline.ofTokens (Scan.tokens text))

/-- Heads that do not go together. -/
inductive Clash (hs : List Head) : Prop where
  /-- A function is declared but not defined. -/
  | undefined {h : Head} (hh : h ∈ hs) (hdecl : h.state = .declared)
      (hnone : ∀ h' ∈ hs, h'.name = h.name → h'.state ≠ .defined)
  /-- A function is defined in two places. -/
  | twice {h h' : Head} (hsub : [h, h'].Sublist hs) (hname : h.name = h'.name)
      (hdef : h.state = .defined) (hdef' : h'.state = .defined)
  /-- A function is the host's in one place and not in another. -/
  | mixed {h h' : Head} (hh : h ∈ hs) (hh' : h' ∈ hs) (hname : h.name = h'.name)
      (himp : h.state = .imported) (hnot : h'.state ≠ .imported)
  /-- A function has different types in two places. -/
  | conflicting {h h' : Head} (hh : h ∈ hs) (hh' : h' ∈ hs) (hname : h.name = h'.name)
      (htys : h.ret ≠ h'.ret ∨ h.params ≠ h'.params)

/-! ## §2. Rows of the table -/

namespace Symbols

variable {Γ Γ' : Symbols}

/-- The names of the functions, in the order of the table. -/
def funcNames (Γ : Symbols) : List String := Γ.funcs.rows.toList.map (·.name)

/-- All places in the table of functions, in order. -/
def funcIds (Γ : Symbols) : List FuncId := (List.range Γ.funcs.size).map FuncId.mk

/-- The function is the host's. -/
def isImported (Γ : Symbols) (f : FuncId) : Bool := (Γ.func? f).any (·.state = .imported)

theorem funcNames_withFunc (Γ : Symbols) (sym : FuncSymbol) :
    (Γ.withFunc sym).funcNames = Γ.funcNames ++ [sym.name] := by
  simp [funcNames, withFunc, Table.insert]

/-- A new row comes last. -/
theorem funcIds_withFunc (Γ : Symbols) (sym : FuncSymbol) :
    (Γ.withFunc sym).funcIds = Γ.funcIds ++ [Γ.nextFunc] := by
  have hsize : (Γ.withFunc sym).funcs.size = Γ.funcs.size + 1 := by
    simp [withFunc, Table.insert, Table.size]
  rw [funcIds, hsize, List.range_succ, List.map_append]
  rfl

/-- A body changes no name... -/
theorem funcNames_define (Γ : Symbols) (f : FuncId) : (Γ.define f).funcNames = Γ.funcNames := by
  refine List.ext_getElem? fun i => ?_
  have hrow : (Γ.define f).funcs.rows[i]?.map (·.name) = Γ.funcs.rows[i]?.map (·.name) := by
    rw [define, Table.modify, Array.getElem?_modify]
    split
    · rw [Option.map_map]
      rfl
    · rfl
  simpa [funcNames] using hrow

/-- ... and adds no function. -/
theorem funcIds_define (Γ : Symbols) (f : FuncId) : (Γ.define f).funcIds = Γ.funcIds := by
  simp [funcIds, define, Table.modify, Table.size]

/-- The functions of the host, in the order of the table. -/
def importedIds (Γ : Symbols) : List FuncId := Γ.funcIds.filter Γ.isImported

theorem importedIds_congr (h : Γ'.funcs = Γ.funcs) : Γ'.importedIds = Γ.importedIds := by
  have hfunc : Γ'.isImported = Γ.isImported := funext fun f => by rw [isImported, func?, h]; rfl
  rw [importedIds, hfunc, funcIds, h]
  rfl

/-- A function of the host comes last. -/
theorem importedIds_withFunc (Γ : Symbols) (sym : FuncSymbol) :
    (Γ.withFunc sym).importedIds =
      Γ.importedIds ++ if sym.state = .imported then [Γ.nextFunc] else [] := by
  have hold : ∀ f ∈ Γ.funcIds, (Γ.withFunc sym).isImported f = Γ.isImported f := by
    intro f hf
    obtain ⟨i, hi, rfl⟩ := List.mem_map.1 hf
    have hi : i < Γ.funcs.rows.size := List.mem_range.1 hi
    have hrow : (Γ.withFunc sym).func? ⟨i⟩ = Γ.func? ⟨i⟩ :=
      (Array.getElem?_push_lt hi).trans (Array.getElem?_eq_getElem hi).symm
    rw [isImported, hrow]
    rfl
  have hnew : (Γ.withFunc sym).isImported Γ.nextFunc = decide (sym.state = .imported) := by
    rw [isImported, func?_withFunc_nextFunc]
    rfl
  rw [importedIds, funcIds_withFunc, List.filter_append, List.filter_congr hold,
    List.filter_singleton, hnew]
  by_cases himp : sym.state = .imported
  · rw [if_pos himp, decide_eq_true himp]
    rfl
  · rw [if_neg himp, decide_eq_false himp]
    rfl

/-- A function that gets a body is not the host's, and no other changes. -/
theorem importedIds_define {f : FuncId} {sym : FuncSymbol} (hf : Γ.func? f = some sym)
    (himp : sym.state ≠ .imported) : (Γ.define f).importedIds = Γ.importedIds := by
  rw [importedIds, funcIds_define]
  refine List.filter_congr fun g _ => ?_
  by_cases hg : g = f
  · rw [hg, isImported, isImported, func?_define_self hf, hf]
    simp [himp]
  · rw [isImported, func?_define_of_ne hg]
    rfl

/-- The names of functions are those in their rows. -/
theorem mem_funcNames {x : String} :
    x ∈ Γ.funcNames ↔ ∃ f sym, Γ.func? f = some sym ∧ sym.name = x := by
  constructor
  · intro hx
    obtain ⟨sym, hsym, hname⟩ := List.mem_map.1 hx
    obtain ⟨i, hi⟩ := List.mem_iff_getElem?.1 hsym
    exact ⟨⟨i⟩, sym, by rw [← hi]; simp [func?, Table.get?], hname⟩
  · rintro ⟨f, sym, hf, rfl⟩
    have hrow : Γ.funcs.rows.toList[f.index]? = some sym := by
      rw [← hf]; simp [func?, Table.get?]
    exact List.mem_map_of_mem (List.mem_of_getElem? hrow)

end Symbols

/-! ## §3. Rows and heads -/

/-- The table has a row for each name in the heads, and the row tells what they
say. -/
structure Symbols.Records (Γ : Symbols) (hs : List Head) : Prop where
  /-- The rows stand in the order of the first heads. -/
  order : Γ.funcNames = (hs.map (·.name)).eraseDups
  agrees : ∀ {f : FuncId} {sym : FuncSymbol}, Γ.func? f = some sym → ∀ h ∈ hs, h.name = sym.name →
    h.ret = sym.ret ∧ h.params = sym.params ∧ (h.state = .imported ↔ sym.state = .imported)
  bodies : ∀ {f : FuncId} {sym : FuncSymbol}, Γ.func? f = some sym →
    hs.countP (·.defines sym.name) = if sym.state = .defined then 1 else 0

namespace Symbols.Records

variable {Γ Γ' : Symbols} {hs : List Head}

/-- Every head has a row, and every row a head. -/
theorem mem_names (hrec : Γ.Records hs) {x : String} :
    x ∈ hs.map (·.name) ↔ ∃ f sym, Γ.func? f = some sym ∧ sym.name = x := by
  rw [← mem_funcNames, hrec.order, List.mem_eraseDups]

/-- Only the functions of the table count. -/
theorem congr (hrec : Γ.Records hs) (h : Γ'.funcs = Γ.funcs) : Γ'.Records hs := by
  have hfunc : ∀ f, Γ'.func? f = Γ.func? f := fun f => by rw [func?, h]; rfl
  refine ⟨?_, fun {f sym} hf => ?_, fun {f sym} hf => ?_⟩
  · rw [funcNames, h]
    exact hrec.order
  · exact hrec.agrees ((hfunc f).symm.trans hf)
  · exact hrec.bodies ((hfunc f).symm.trans hf)

/-- A head for a new name is a new row. -/
theorem new (hrec : Γ.Records hs) {sym : FuncSymbol} (hnot : sym.state ≠ .defined)
    (hfresh : ∀ {f : FuncId} {sym' : FuncSymbol}, Γ.func? f = some sym' → sym'.name ≠ sym.name) :
    (Γ.withFunc sym).Records (hs ++ [⟨sym.name, sym.ret, sym.params, sym.state⟩]) := by
  have hunseen : ∀ h ∈ hs, h.name ≠ sym.name := by
    intro h hh heq
    obtain ⟨f, sym', hf, hname⟩ := hrec.mem_names.1 (List.mem_map_of_mem hh)
    exact hfresh hf (hname.trans heq)
  refine ⟨?_, fun {f sym'} hf h hh hname => ?_, fun {f sym'} hf => ?_⟩
  · rw [funcNames_withFunc, hrec.order, List.map_append, List.map_singleton,
      Names.eraseDups_concat, if_neg]
    intro hmem
    obtain ⟨h, hh, heq⟩ := List.mem_map.1 hmem
    exact hunseen h hh heq
  · -- an old row agrees with the old heads, and the new one only with the new head
    rcases func?_of_withFunc hf with hf | ⟨rfl, rfl⟩
    · rcases List.mem_append.1 hh with hh | hh
      · exact hrec.agrees hf h hh hname
      · rw [List.mem_singleton.1 hh] at hname
        exact absurd hname.symm (hfresh hf)
    · rcases List.mem_append.1 hh with hh | hh
      · exact absurd hname (hunseen h hh)
      · rw [List.mem_singleton.1 hh]
        exact ⟨rfl, rfl, Iff.rfl⟩
  · have hlast : Head.defines sym'.name ⟨sym.name, sym.ret, sym.params, sym.state⟩ = false := by
      simp [Head.defines, hnot]
    rw [List.countP_append, List.countP_singleton, hlast]
    rcases func?_of_withFunc hf with hf | ⟨rfl, rfl⟩
    · exact hrec.bodies hf
    · rw [if_neg hnot, List.countP_eq_zero.2]
      · rfl
      · intro h hh
        simp [Head.defines, hunseen h hh]

/-- A head for a name of the table that says the same as its row. -/
theorem again (hrec : Γ.Records hs) {f : FuncId} {sym : FuncSymbol} (hf : Γ.func? f = some sym)
    (hunique : ∀ {g : FuncId} {sym' : FuncSymbol}, Γ.func? g = some sym' →
      sym'.name = sym.name → g = f)
    (himp : sym.state ≠ .imported) :
    Γ.Records (hs ++ [⟨sym.name, sym.ret, sym.params, .declared⟩]) := by
  have hseen : sym.name ∈ hs.map (·.name) := hrec.mem_names.2 ⟨f, sym, hf, rfl⟩
  refine ⟨?_, fun {g sym'} hg h hh hname => ?_, fun {g sym'} hg => ?_⟩
  · rw [List.map_append, List.map_singleton, Names.eraseDups_concat, if_pos hseen]
    exact hrec.order
  · rcases List.mem_append.1 hh with hh | hh
    · exact hrec.agrees hg h hh hname
    · rw [List.mem_singleton.1 hh] at hname ⊢
      obtain rfl := hunique hg hname.symm
      rw [hf] at hg
      cases hg
      exact ⟨rfl, rfl, iff_of_false nofun himp⟩
  · rw [List.countP_append, List.countP_singleton, hrec.bodies hg]
    simp [Head.defines]

/-- A body for the last head. -/
theorem define {h : Head} (hrec : Γ.Records (hs ++ [h])) (hdecl : h.state = .declared) {f : FuncId}
    {sym : FuncSymbol} (hf : Γ.func? f = some sym) (hname : h.name = sym.name)
    (hunique : ∀ {g : FuncId} {sym' : FuncSymbol}, Γ.func? g = some sym' →
      sym'.name = sym.name → g = f)
    (hdef : sym.state ≠ .defined) :
    (Γ.define f).Records (hs ++ [{ h with state := .defined }]) := by
  obtain ⟨hret, hparams, hstate⟩ :=
    hrec.agrees hf h (List.mem_append_right _ (List.mem_singleton_self h)) hname
  have himp : sym.state ≠ .imported := by
    intro himp
    rw [hdecl] at hstate
    exact nomatch hstate.2 himp
  -- the last head had no body, so counting bodies may leave it out
  have hcount : ∀ {g : FuncId} {sym' : FuncSymbol}, Γ.func? g = some sym' →
      hs.countP (·.defines sym'.name) = if sym'.state = .defined then 1 else 0 := by
    intro g sym' hg
    have hlast : Head.defines sym'.name h = false := by simp [Head.defines, hdecl]
    have hall := hrec.bodies hg
    rw [List.countP_append, List.countP_singleton, hlast] at hall
    exact hall
  refine ⟨?_, fun {g sym'} hg h' hh' hname' => ?_, fun {g sym'} hg => ?_⟩
  · have horder := hrec.order
    rw [List.map_append] at horder ⊢
    rw [funcNames_define]
    exact horder
  · rcases func?_of_define hg with ⟨hne, hg⟩ | ⟨rfl, sym'', hold, rfl⟩
    · rcases List.mem_append.1 hh' with hh' | hh'
      · exact hrec.agrees hg h' (List.mem_append_left _ hh') hname'
      · rw [List.mem_singleton.1 hh'] at hname'
        exact absurd (hunique hg (hname'.symm.trans hname)) hne
    · rw [hf] at hold
      cases hold
      rcases List.mem_append.1 hh' with hh' | hh'
      · obtain ⟨hret', hparams', hstate'⟩ := hrec.agrees hf h' (List.mem_append_left _ hh') hname'
        exact ⟨hret', hparams', iff_of_false (fun hi => himp (hstate'.1 hi)) nofun⟩
      · rw [List.mem_singleton.1 hh']
        exact ⟨hret, hparams, iff_of_false nofun nofun⟩
  · rw [List.countP_append, List.countP_singleton]
    rcases func?_of_define hg with ⟨hne, hg⟩ | ⟨rfl, sym'', hold, rfl⟩
    · have hother : sym.name ≠ sym'.name := fun heq => hne (hunique hg heq.symm)
      have hlast : Head.defines sym'.name { h with state := .defined } = false := by
        simp [Head.defines, hname, hother]
      rw [hcount hg, hlast]
      rfl
    · rw [hf] at hold
      cases hold
      have hlast : Head.defines sym.name { h with state := .defined } = true := by
        simp [Head.defines, hname]
      have hnone := hcount hf
      rw [if_neg hdef] at hnone
      show hs.countP (·.defines sym.name) + _ = 1
      rw [hnone, hlast]
      rfl

/-- **Heads that clash are not recorded**, once every function is imported or
has a body. -/
theorem not_clash (hrec : Γ.Records hs) (hdone : ∀ {f : FuncId} {sym : FuncSymbol},
    Γ.func? f = some sym → sym.state = .imported ∨ sym.state = .defined) : ¬ Clash hs := by
  have hrow : ∀ h ∈ hs, ∃ f sym, Γ.func? f = some sym ∧ sym.name = h.name :=
    fun h hh => hrec.mem_names.1 (List.mem_map_of_mem hh)
  intro hclash
  cases hclash with
  | @undefined h hh hdecl hnone =>
    obtain ⟨f, sym, hf, hname⟩ := hrow h hh
    have himp : sym.state ≠ .imported := by
      intro himp
      have hstate := (hrec.agrees hf h hh hname.symm).2.2.2 himp
      rw [hdecl] at hstate
      cases hstate
    -- the function has a body, so one of its heads came with it
    have hcount := hrec.bodies hf
    rw [if_pos ((hdone hf).resolve_left himp)] at hcount
    have hpos := Nat.lt_of_lt_of_eq Nat.zero_lt_one hcount.symm
    obtain ⟨h', hh', hdef⟩ := List.countP_pos_iff.1 hpos
    have hdef : h'.name = sym.name ∧ h'.state = .defined := by simpa [Head.defines] using hdef
    exact hnone h' hh' (hdef.1.trans hname) hdef.2
  | @twice h h' hsub hname hdef hdef' =>
    have hh : h ∈ hs := hsub.subset (List.mem_cons_self ..)
    obtain ⟨f, sym, hf, hsym⟩ := hrow h hh
    have htwo : [h, h'].countP (·.defines sym.name) = 2 := by
      simp [Head.defines, hsym, ← hname, hdef, hdef']
    -- a row counts one body at most
    have hle : [h, h'].countP (·.defines sym.name) ≤ hs.countP (·.defines sym.name) :=
      hsub.countP_le
    rw [htwo, hrec.bodies hf] at hle
    split at hle <;> omega
  | @mixed h h' hh hh' hname himp hnot =>
    obtain ⟨f, sym, hf, hsym⟩ := hrow h hh
    have hstate := (hrec.agrees hf h hh hsym.symm).2.2.1 himp
    exact hnot ((hrec.agrees hf h' hh' (hname.symm.trans hsym.symm)).2.2.2 hstate)
  | @conflicting h h' hh hh' hname htys =>
    obtain ⟨f, sym, hf, hsym⟩ := hrow h hh
    obtain ⟨hret, hparams, _⟩ := hrec.agrees hf h hh hsym.symm
    obtain ⟨hret', hparams', _⟩ := hrec.agrees hf h' hh' (hname.symm.trans hsym.symm)
    rcases htys with hne | hne
    · exact hne (hret.trans hret'.symm)
    · exact hne (hparams.trans hparams'.symm)

end Symbols.Records

/-! ## §4. Items -/

namespace Check

variable {found : Found} {env' : Env} {f : FuncId} {hs : List Head}

/-- What has been found so far records the heads so far, and lists the
functions of the host in the order of the table. -/
structure Found.Records (found : Found) (hs : List Head) : Prop where
  rows : found.env.symbols.Records hs
  imports : found.imports = found.env.symbols.importedIds

/-- A new function is none of those in the table. -/
theorem fresh_of_newFunction {sym : FuncSymbol} (hok : found.Ok)
    (h : newFunction found.env sym = .ok (f, env')) {g : FuncId} {sym' : FuncSymbol}
    (hg : found.env.symbols.func? g = some sym') : sym'.name ≠ sym.name := by
  obtain ⟨_, _, hadd⟩ := newFunction_eq_ok h
  obtain ⟨_, _, hnone⟩ := Scope.add_outer hok.scope.inner hadd
  intro heq
  have hlookup := hok.scope.names hg
  rw [heq, hnone] at hlookup
  cases hlookup

/-- A new function is a row more for its head. -/
theorem newFunction_records {sym : FuncSymbol} (hok : found.Ok) (hrec : found.Records hs)
    (hnot : sym.state ≠ .defined) (h : newFunction found.env sym = .ok (f, env')) :
    Found.Records
      { found with
        env := env', imports := found.imports ++ if sym.state = .imported then [f] else [] }
      (hs ++ [⟨sym.name, sym.ret, sym.params, sym.state⟩]) := by
  have hfresh : ∀ {g : FuncId} {sym' : FuncSymbol}, found.env.symbols.func? g = some sym' →
      sym'.name ≠ sym.name := fresh_of_newFunction hok h
  obtain ⟨rfl, hsym, _⟩ := newFunction_eq_ok h
  constructor
  · show env'.symbols.Records _
    rw [hsym]
    exact hrec.rows.new hnot hfresh
  · show found.imports ++ _ = env'.symbols.importedIds
    rw [hsym, Symbols.importedIds_withFunc, hrec.imports]

/-- The head of a function, new or known, is recorded. -/
theorem declareFunction_records {sig : Outline.Signature} (hok : found.Ok)
    (hrec : found.Records hs)
    (h : declareFunction found.env sig (sig.params.map (·.ty)) = .ok (f, env')) :
    Found.Records { found with env := env' } (hs ++ [sig.head .declared]) := by
  obtain hnew | ⟨rfl, hget, sym, hsym, hstate, hret, hparams⟩ := declareFunction_eq_ok h
  · have hnew := newFunction_records hok hrec (by nofun) hnew
    rw [if_neg nofun, List.append_nil] at hnew
    exact hnew
  · rw [Scope.get?_of_inner hok.scope.inner] at hget
    obtain ⟨sym', hsym', hname⟩ := hok.scope.funcs (mem_of_lookup hget)
    cases hsym.symm.trans hsym'
    refine ⟨?_, hrec.imports⟩
    have hagain := hrec.rows.again hsym (fun hg heq => hok.scope.unique hg hsym heq) hstate
    rw [hname, hret, hparams] at hagain
    exact hagain

/-- **An item records its head**, if it has one. -/
theorem ItemChecked.records {found' : Found} {i : Outline.Item} (h : ItemChecked found i found')
    (hok : found.Ok) (hrec : found.Records hs) : found'.Records (hs ++ i.head?.toList) := by
  cases h with
  | @imported sig tys f env hsig hnew =>
    have himported := newFunction_records hok hrec (by nofun) hnew
    rw [if_pos rfl, (signature_eq_ok hsig).1] at himported
    exact himported
  | declared hsig hdecl =>
    obtain ⟨rfl, _⟩ := signature_eq_ok hsig
    exact declareFunction_records hok hrec hdecl
  | @defined sig tys f env env' body g hsig hdecl hbody =>
    obtain ⟨rfl, hne⟩ := signature_eq_ok hsig
    obtain ⟨hstep, sym, hf, hname, hret, hparams, himp⟩ := declareFunction_step hok hne hdecl
    obtain ⟨⟨_, hdef⟩, ⟨_, _, _, hfuncs⟩, _⟩ :=
      functionBody_wellFormed hstep.ok hf hname hret hparams (hparams ▸ hne) hbody
    -- the head is recorded before the body is checked, and the body adds no function
    have hhead := declareFunction_records hok hrec hdecl
    constructor
    · refine Symbols.Records.congr ?_ hfuncs
      exact hhead.rows.define rfl hf hname.symm
        (fun hg heq => hstep.ok.scope.unique hg hf heq) hdef
    · show found.imports = env'.symbols.importedIds
      rw [Symbols.importedIds_congr hfuncs, Symbols.importedIds_define hf himp]
      exact hhead.imports
  | @global d v init st value hdecl _ =>
    obtain ⟨ty, _, _, hdeclare⟩ := declaration_eq_ok hdecl
    obtain ⟨_, hsym, _⟩ := declare_eq_ok hdeclare
    have hfuncs : st.symbols.funcs = found.env.symbols.funcs := by rw [hsym]; rfl
    rw [Outline.Item.head?, Option.toList_none, List.append_nil]
    refine ⟨hrec.rows.congr hfuncs, ?_⟩
    show found.imports = st.symbols.importedIds
    rw [Symbols.importedIds_congr hfuncs]
    exact hrec.imports

/-- **A run over items records their heads.** -/
theorem items_records {is : List Outline.Item} {found' : Found} (hok : found.Ok)
    (hrec : found.Records hs) (h : items found is = .ok found') :
    found'.Records (hs ++ Outline.heads is) := by
  induction is generalizing found hs with
  | nil =>
    cases h
    rw [Outline.heads, List.filterMap_nil, List.append_nil]
    exact hrec
  | cons i is ih =>
    obtain ⟨found₁, hi, h⟩ := bind_eq_ok.1 h
    have hrest := ih (item_step hok hi).ok ((itemChecked_of_item hi).records hok hrec) h
    rw [List.append_assoc] at hrest
    rw [Outline.heads_cons]
    exact hrest

/-- Nothing is recorded at the start. -/
theorem Found.records_empty : Found.Records {} [] :=
  ⟨⟨rfl, fun _ => List.forall_mem_nil _, fun h => nomatch h⟩, rfl⟩

end Check

/-! ## §5. Programs -/

/-- The table of functions is closed: nothing in it is missing, and nothing
stands in two places. -/
structure Program.Closed (p : Program) (hs : List Head) : Prop where
  /-- The names are those of the heads, each once, in the order of the first
  heads. -/
  order : p.symbols.funcNames = (hs.map (·.name)).eraseDups
  names_nodup : p.symbols.funcNames.Nodup
  /-- A function is the host's or has a body. -/
  covered : ∀ {f : FuncId} {sym : FuncSymbol}, p.symbols.func? f = some sym →
    sym.state = .imported ∨ sym.state = .defined
  /-- The imports are the functions of the host, in the order of the table. -/
  imports : p.imports = p.symbols.importedIds
  imports_nodup : p.imports.Nodup
  /-- A function has one item if it has a body, and else none. -/
  items : ∀ f, (p.functions.map (·.id)).count f =
    if (p.symbols.func? f).any (·.state = .defined) then 1 else 0
  /-- An item has the name and the types of the table. -/
  agrees : ∀ f ∈ p.functions, ∃ sym, p.symbols.func? f.id = some sym ∧
    f.name = sym.name ∧ f.ret = sym.ret ∧
    f.params.map (fun v => (p.symbols.var? v).map (·.ty)) = sym.params.map some
  /-- A call is one of a function of the host, or of one that has an item. -/
  calls : ∀ f ∈ p.functions, ∀ {g : FuncId} {args : List Expr} {ty : Ty} {line : Nat},
    f.Mentions (.call g args ty line) → g ∈ p.imports ∨ g ∈ p.functions.map (·.id)

/-- A function that is called is in the table. -/
theorem HasTy.called {Γ : Symbols} {U : VarId → Prop} {f : FuncId} {args : List Expr} {ty t : Ty}
    {line : Nat} (h : HasTy Γ U (.call f args ty line) t) : ∃ sym, Γ.func? f = some sym := by
  cases h with
  | call hf _ => exact ⟨_, hf⟩

/-- Names that tell the rows apart stand once each. -/
theorem Symbols.nodup_funcNames {Γ : Symbols}
    (h : ∀ {f g : FuncId} {sym sym' : FuncSymbol}, Γ.func? f = some sym →
      Γ.func? g = some sym' → sym.name = sym'.name → f = g) : Γ.funcNames.Nodup := by
  rw [List.nodup_iff_getElem?_ne_getElem?]
  intro i j hij hj heq
  have hrow : ∀ k, Γ.funcNames[k]? = (Γ.func? ⟨k⟩).map (·.name) := by
    intro k
    simp [funcNames, func?, Table.get?]
  rw [hrow, hrow] at heq
  have hj : j < Γ.funcs.rows.size := by simpa [funcNames] using hj
  have hi : i < Γ.funcs.rows.size := hij.trans hj
  have hfi : Γ.func? ⟨i⟩ = some Γ.funcs.rows[i] := Array.getElem?_eq_getElem hi
  have hfj : Γ.func? ⟨j⟩ = some Γ.funcs.rows[j] := Array.getElem?_eq_getElem hj
  rw [hfi, hfj, Option.map_some, Option.map_some, Option.some.injEq] at heq
  have hid := congrArg FuncId.index (h hfi hfj heq)
  exact absurd hid (Nat.ne_of_lt hij)

/-- What holds of the items found in the end. -/
theorem found_of_parse {text : String} (h : parse text = .ok p) :
    ∃ found : Check.Found, p = found.toProgram ∧ found.Ok ∧ found.Records (heads text) ∧
      ∀ {f : FuncId} {sym : FuncSymbol}, p.symbols.func? f = some sym → sym.state ≠ .declared := by
  obtain ⟨found, hitems, h⟩ := bind_eq_ok.1 h
  obtain ⟨_, hdef, h⟩ := bind_eq_ok.1 h
  cases h
  refine ⟨found, rfl, (Check.items_step Check.Found.ok_empty hitems).ok, ?_,
    Check.ne_declared_of_allDefined hdef⟩
  exact Check.items_records Check.Found.ok_empty Check.Found.records_empty hitems

/-- What parsing returns is closed over the heads of the text. -/
theorem Program.closed_of_parse {text : String} (h : parse text = .ok p) :
    p.Closed (heads text) := by
  have hp := wellFormed_of_parse h
  obtain ⟨found, rfl, hok, hrec, hdone⟩ := found_of_parse h
  exact {
    order := hrec.rows.order
    names_nodup := Symbols.nodup_funcNames hp.names
    covered := by
      intro f sym hf
      cases hs : sym.state with
      | imported => exact .inl rfl
      | declared => exact absurd hs (hdone hf)
      | defined => exact .inr rfl
    imports := hrec.imports
    imports_nodup := hp.imports_nodup
    items := by
      intro f
      -- no function stands twice, so the count says whether it stands there
      rw [List.Nodup.count hp.ids_nodup]
      cases hf : found.toProgram.symbols.func? f with
      | none =>
        rw [if_neg]
        · rfl
        · intro hmem
          have hknown := hok.tracks.ids_known f hmem
          have hf : found.env.symbols.func? f = none := hf
          rw [hf] at hknown
          cases hknown
      | some sym =>
        have hiff := hok.tracks.defined hf
        by_cases hdef : sym.state = .defined
        · rw [if_pos (hiff.1 hdef)]
          simp [hdef]
        · rw [if_neg fun hmem => hdef (hiff.2 hmem)]
          simp [hdef]
    agrees := by
      intro f hf
      obtain ⟨sym, hsym, hname, hret, hparams⟩ := (hp.functions f hf).symbol
      exact ⟨sym, hsym, hname.symm, hret.symm, hparams⟩
    calls := by
      intro f hf g args ty line hmention
      obtain ⟨t, ht, _⟩ := (hp.functions f hf).wholeTyped hmention
      obtain ⟨sym, hg⟩ := ht.called
      exact hp.covered hg }

/-- The name of a function in the table stands in a head. -/
theorem Program.Closed.mem_heads {hs : List Head} (h : p.Closed hs) {f : FuncId}
    {sym : FuncSymbol} (hf : p.symbols.func? f = some sym) : ∃ head ∈ hs, head.name = sym.name := by
  have hmem := Symbols.mem_funcNames.2 ⟨f, sym, hf, rfl⟩
  rw [h.order, List.mem_eraseDups] at hmem
  exact List.mem_map.1 hmem

/-- **The table of functions of a parsed program is closed, and heads that
clash are rejected.** -/
theorem functions_closed (text : String) :
    (∀ p, parse text = .ok p → p.Closed (heads text)) ∧
      (Clash (heads text) → ∃ f, parse text = .error f) := by
  refine ⟨fun p => Program.closed_of_parse, fun hclash => ?_⟩
  cases h : parse text with
  | error f => exact ⟨f, rfl⟩
  | ok p =>
    obtain ⟨found, rfl, _, hrec, _⟩ := found_of_parse h
    exact absurd hclash (hrec.rows.not_clash (Program.closed_of_parse h).covered)

/-- A program with a function of the host, and a function that is declared
before it gets the body that calls it. -/
def callingText : String :=
  "extern int g(int x); int f(int a); int f(int a) { return g(a); }"

/-- The function of the program. -/
def callingFunction : Function where
  id := ⟨1⟩
  name := "f"
  ret := .int
  params := [⟨0⟩]
  locals := [⟨0⟩]
  body := [.ret (some (.call ⟨0⟩ [.var ⟨0⟩ .int 1] .int 1))]

/-- The program itself. -/
def callingProgram : Program where
  items := [.function callingFunction]
  imports := [⟨0⟩]
  symbols :=
    { vars := ⟨#[⟨"a", .int, .localVar, 1⟩]⟩
      funcs := ⟨#[⟨"g", .int, [.int], .imported, 1⟩, ⟨"f", .int, [.int], .defined, 1⟩]⟩ }

/-- A function with different types in two places. -/
def conflictingText : String := "int f(int a); int f(float a) { return 1; }"

set_option maxRecDepth 10000 in
theorem parse_callingText : parse callingText = .ok callingProgram := by
  cbv

set_option maxRecDepth 10000 in
theorem heads_conflictingText : heads conflictingText =
    [⟨"f", .int, [.int], .declared⟩, ⟨"f", .int, [.float], .defined⟩] := by
  cbv

/-- The host's function comes first in the table and has no item, the other has
one item and calls it; the two heads that differ are rejected. -/
theorem functions_closed_calling :
    parse callingText = .ok callingProgram ∧
      callingProgram.symbols.funcNames = ["g", "f"] ∧
      callingProgram.imports = callingProgram.symbols.importedIds ∧
      (callingProgram.functions.map (·.id)).count ⟨1⟩ = 1 ∧
      callingFunction.Mentions (.call ⟨0⟩ [.var ⟨0⟩ .int 1] .int 1) ∧
      (⟨0⟩ ∈ callingProgram.imports ∨ ⟨0⟩ ∈ callingProgram.functions.map (·.id)) ∧
      Clash (heads conflictingText) ∧ ∃ f, parse conflictingText = .error f := by
  have hclosed := (functions_closed callingText).1 _ parse_callingText
  have hf : callingFunction ∈ callingProgram.functions := List.mem_singleton.2 rfl
  have hmention : callingFunction.Mentions (.call ⟨0⟩ [.var ⟨0⟩ .int 1] .int 1) :=
    ⟨_, .head _, .refl⟩
  have hclash : Clash (heads conflictingText) := by
    rw [heads_conflictingText]
    exact .conflicting (.head _) (.tail _ (.head _)) rfl (.inr (by decide))
  exact ⟨parse_callingText, rfl, hclosed.imports, hclosed.items ⟨1⟩, hmention,
    hclosed.calls _ hf hmention, hclash, (functions_closed conflictingText).2 hclash⟩

end MiniC
