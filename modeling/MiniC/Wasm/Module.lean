/-
  MiniC.Wasm.Module

  Modules and their text.

  A module imports functions of the host, may have memory, and defines globals
  and functions.  The functions are exported under their names.
-/
import MiniC.Text.Digits
import MiniC.Wasm.Form
import MiniC.Wasm.Instr

namespace MiniC.Wasm

/-! ## §1. Modules -/

/-- A function of the host. -/
structure Import where
  name : String
  params : List ValType
  result : Option ValType
  deriving DecidableEq, Repr

/-- A global variable. -/
structure Global where
  var : VarId
  /-- The value it starts with, which gives its type. -/
  init : Const
  /-- It can be assigned to. -/
  mutable : Bool
  deriving DecidableEq, Repr

/-- A variable of a function, with its type. -/
structure Slot where
  var : VarId
  ty : ValType
  deriving DecidableEq, Repr

/-- A function. -/
structure Func where
  name : String
  params : List Slot
  result : Option ValType
  /-- The variables that are not parameters. -/
  locals : List Slot
  body : List Instr
  deriving Repr

/-- A module. -/
structure Module where
  imports : List Import
  /-- Pages of memory, if there is any. -/
  memory : Option Nat
  globals : List Global
  funcs : List Func
  deriving Repr

/-! ## §2. The text of an instruction -/

/-- The name of a type. -/
def ValType.text : ValType → String
  | .i32 => "i32"
  | .f32 => "f32"

/-- A constant as it is pushed. -/
def Const.text : Const → String
  | .int n => "i32.const " ++ Text.signed n.toInt
  | .word n => "i32.const " ++ Text.unsigned n.toNat
  | .float x => "f32.const " ++ x.text
  | .zero t => t.text ++ ".const 0"

/-- The ending of a comparison that is signed or not. -/
def signedness : Bool → String
  | true => "_s"
  | false => "_u"

/-- The name of an operator on integers. -/
def IntOp.text : IntOp → String
  | .add => "i32.add"
  | .sub => "i32.sub"
  | .mul => "i32.mul"
  | .divS => "i32.div_s"
  | .and => "i32.and"
  | .or => "i32.or"
  | .eq => "i32.eq"
  | .ne => "i32.ne"
  | .lt signed => "i32.lt" ++ signedness signed
  | .gt signed => "i32.gt" ++ signedness signed
  | .le signed => "i32.le" ++ signedness signed
  | .ge signed => "i32.ge" ++ signedness signed

/-- The name of an operator on floats. -/
def FloatOp.text : FloatOp → String
  | .add => "f32.add"
  | .sub => "f32.sub"
  | .mul => "f32.mul"
  | .div => "f32.div"
  | .eq => "f32.eq"
  | .ne => "f32.ne"
  | .lt => "f32.lt"
  | .gt => "f32.gt"
  | .le => "f32.le"
  | .ge => "f32.ge"

/-- The name of a block or loop. -/
def Label.text : Label → String
  | .exit depth => "$WO" ++ Text.unsigned depth
  | .entry depth => "$WI" ++ Text.unsigned depth

/-- The name of a variable. -/
def varText (v : VarId) : String := "$V" ++ Text.unsigned v.index

mutual

/-- The form of an instruction. -/
def Instr.form : Instr → Form
  | .const c => .line c.text
  | .localGet v => .line ("local.get " ++ varText v)
  | .localSet v => .line ("local.set " ++ varText v)
  | .globalGet v => .line ("global.get " ++ varText v)
  | .globalSet v => .line ("global.set " ++ varText v)
  | .call f => .line ("call $" ++ f)
  | .load t => .line (t.text ++ ".load")
  | .int op => .line op.text
  | .float op => .line op.text
  | .eqz => .line "i32.eqz"
  | .floatNeg => .line "f32.neg"
  | .convert => .line "f32.convert_i32_s"
  | .truncate => .line "i32.trunc_f32_s"
  | .drop => .line "drop"
  | .ret => .line "return"
  | .unreachable => .line "unreachable"
  | .br l => .line ("br " ++ l.text)
  | .brIf l => .line ("br_if " ++ l.text)
  | .block l body => .group ("block " ++ l.text) (codeForms body)
  | .loop l body => .group ("loop " ++ l.text) (codeForms body)
  | .ifThen body => .group "if" [.group "then" (codeForms body)]
  | .ifElse body other =>
    .group "if" [.group "then" (codeForms body), .group "else" (codeForms other)]
  | .ifValue body other =>
    .group "if (result i32)" [.group "then" (codeForms body), .group "else" (codeForms other)]

/-- The forms of instructions. -/
def codeForms : List Instr → List Form
  | [] => []
  | i :: is => i.form :: codeForms is

end

/-! ## §3. The text of a module -/

/-- A parameter in the head of an import. -/
def paramText (t : ValType) : String := " (param " ++ t.text ++ ")"

/-- The result in the head of an import. -/
def resultText : Option ValType → String
  | some t => " (result " ++ t.text ++ ")"
  | none => ""

/-- The form of an import. -/
def Import.form (i : Import) : Form :=
  .line ("(import \"env\" \"" ++ i.name ++ "\" (func $" ++ i.name ++
    String.join (i.params.map paramText) ++ resultText i.result ++ "))")

/-- The form of a global. -/
def Global.form (g : Global) : Form :=
  let ty := g.init.ty.text
  .line ("(global " ++ varText g.var ++ " " ++ (if g.mutable then "(mut " ++ ty ++ ")" else ty) ++
    " (" ++ g.init.text ++ "))")

/-- The form of a variable of a function. -/
def Slot.form (role : String) (s : Slot) : Form :=
  .line ("(" ++ role ++ " " ++ varText s.var ++ " " ++ s.ty.text ++ ")")

/-- The form of the result of a function. -/
def resultForms : Option ValType → List Form
  | some t => [.line ("(result " ++ t.text ++ ")")]
  | none => []

/-- The form of a function. -/
def Func.form (f : Func) : Form :=
  .group ("func $" ++ f.name ++ " (export \"" ++ f.name ++ "\")")
    (f.params.map (Slot.form "param") ++ resultForms f.result ++
      f.locals.map (Slot.form "local") ++ codeForms f.body)

/-- The form of the memory of a module. -/
def memoryForms : Option Nat → List Form
  | some pages => [.line ("(memory " ++ Text.unsigned pages ++ ")")]
  | none => []

/-- The form of a module. -/
def Module.form (m : Module) : Form :=
  .group "module" (m.imports.map Import.form ++ memoryForms m.memory ++
    m.globals.map Global.form ++ m.funcs.map Func.form)

/-- The text of a module. -/
def Module.text (m : Module) : String := m.form.text

end MiniC.Wasm
