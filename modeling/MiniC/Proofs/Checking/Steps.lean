/-
  MiniC.Proofs.Checking.Steps

  What checking one item can do.

  An item that is checked without a fault is one of four: a function of the
  host, a head without a body, a head with one, or a global variable
  (`ItemChecked`).  What a run over all items keeps follows from what each of
  the four keeps.
-/
import MiniC.Proofs.Typing.Items

namespace MiniC.Check

open Outline (Signature Declaration)

/-- An item, and what has been found before and after it. -/
inductive ItemChecked (found : Found) : Outline.Item → Found → Prop where
  /-- A function of the host. -/
  | imported {sig : Signature} {tys : List Ty} {f : FuncId} {env : Env}
      (hsig : signature sig = .ok tys)
      (hnew : newFunction found.env ⟨sig.name, sig.ret, tys, .imported, sig.line⟩ = .ok (f, env)) :
      ItemChecked found (.imported sig none)
        { found with env := env, imports := found.imports ++ [f] }
  /-- A head without a body. -/
  | declared {sig : Signature} {tys : List Ty} {f : FuncId} {env : Env}
      (hsig : signature sig = .ok tys) (hdecl : declareFunction found.env sig tys = .ok (f, env)) :
      ItemChecked found (.function sig .none) { found with env := env }
  /-- A head and a body. -/
  | defined {sig : Signature} {tys : List Ty} {f : FuncId} {env env' : Env}
      {body : List Outline.Stmt} {g : Function} (hsig : signature sig = .ok tys)
      (hdecl : declareFunction found.env sig tys = .ok (f, env))
      (hbody : functionBody env f sig body = .ok (g, env')) :
      ItemChecked found (.function sig (.block body))
        { found with env := env', items := found.items ++ [.function g] }
  /-- A global variable. -/
  | global {d : Declaration} {v : VarId} {init : Option Expr} {st : State} {value : Option Literal}
      (hdecl : declaration { found.env with locals := [] } .globalVar d = .ok ((v, init), st))
      (hvalue : constant init = .ok value) :
      ItemChecked found (.global d)
        { found with env := st.toEnv, items := found.items ++ [.global v value] }

theorem raise_eq_ok {fault : Option Fault} {u : Unit} (h : raise fault = .ok u) : fault = none := by
  cases fault with
  | none => rfl
  | some f => cases h

/-- **An item that is checked is one of the four.** -/
theorem itemChecked_of_item {found found' : Found} {i : Outline.Item}
    (h : item found i = .ok found') : ItemChecked found i found' := by
  cases i with
  | imported sig fault =>
    obtain ⟨tys, hsig, h⟩ := bind_eq_ok.1 h
    obtain ⟨_, hfault, h⟩ := bind_eq_ok.1 h
    obtain ⟨⟨f, env⟩, hnew, h⟩ := bind_eq_ok.1 h
    cases h
    rw [raise_eq_ok hfault]
    exact .imported hsig hnew
  | function sig body =>
    obtain ⟨tys, hsig, h⟩ := bind_eq_ok.1 h
    obtain ⟨⟨f, env⟩, hdecl, h⟩ := bind_eq_ok.1 h
    cases body with
    | none =>
      cases h
      exact .declared hsig hdecl
    | broken fault => cases h
    | block ss =>
      obtain ⟨⟨g, env'⟩, hbody, h⟩ := bind_eq_ok.1 h
      cases h
      exact .defined hsig hdecl hbody
  | global d =>
    obtain ⟨⟨⟨v, init⟩, st⟩, hdecl, h⟩ := bind_eq_ok.1 h
    obtain ⟨value, hvalue, h⟩ := bind_eq_ok.1 h
    cases h
    exact .global hdecl hvalue
  | broken f => cases h

end MiniC.Check
