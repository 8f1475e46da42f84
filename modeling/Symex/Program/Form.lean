import Symex.Expr.Form
import Symex.Program.Basic

namespace Symex

def ofText? {α : Type} (all : List α) (text : α → String) (s : String) : Option α :=
  all.find? (text · == s)

namespace Location

def ofForm? (j : Json) : Option Location := do
  let j ← j.record? ["function", "block", "index"]
  return ⟨← (j.field "function").half?, ← (j.field "block").half?, ← (j.field "index").half?⟩

def toForm (l : Location) : Json :=
  .object [("function", .nat l.function), ("block", .nat l.block), ("index", .nat l.index)]

end Location

namespace Operand

def ofForm? (j : Json) : Option Operand := do
  match ← j.tagged? with
  | ("Register", some r) => return .register (← r.half?)
  | ("Constant", some c) => return .constant (← c.half?)
  | _ => none

def toForm : Operand → Json
  | .register r => .tagged "Register" (.nat r)
  | .constant c => .tagged "Constant" (.nat c)

end Operand

namespace IntPredicate

def all : List IntPredicate := [.eq, .ne, .ugt, .uge, .ult, .ule, .sgt, .sge, .slt, .sle]

def text : IntPredicate → String
  | eq => "Eq" | ne => "Ne" | ugt => "Ugt" | uge => "Uge" | ult => "Ult" | ule => "Ule"
  | sgt => "Sgt" | sge => "Sge" | slt => "Slt" | sle => "Sle"

end IntPredicate

namespace CastOp

def all : List CastOp := [.trunc, .zext, .sext, .ptrToInt, .intToPtr, .bitCast]

def text : CastOp → String
  | trunc => "Trunc" | zext => "ZExt" | sext => "SExt" | ptrToInt => "PtrToInt"
  | intToPtr => "IntToPtr" | bitCast => "BitCast"

end CastOp

namespace FloatOp

def all : List FloatOp := [.add, .sub, .mul, .div, .rem]

def text : FloatOp → String
  | add => "FAdd" | sub => "FSub" | mul => "FMul" | div => "FDiv" | rem => "FRem"

end FloatOp

namespace FloatPredicate

def all : List FloatPredicate :=
  [.never, .oeq, .ogt, .oge, .olt, .ole, .one, .ord, .uno, .ueq, .ugt, .uge, .ult, .ule, .une, .always]

def text : FloatPredicate → String
  | never => "False" | oeq => "Oeq" | ogt => "Ogt" | oge => "Oge" | olt => "Olt" | ole => "Ole"
  | one => "One" | ord => "Ord" | uno => "Uno" | ueq => "Ueq" | ugt => "Ugt" | uge => "Uge"
  | ult => "Ult" | ule => "Ule" | une => "Une" | always => "True"

end FloatPredicate

namespace FloatCastOp

def all : List FloatCastOp := [.narrow, .widen, .toUnsigned, .toSigned, .ofUnsigned, .ofSigned]

def text : FloatCastOp → String
  | narrow => "FpTrunc" | widen => "FpExt" | toUnsigned => "FpToUi" | toSigned => "FpToSi"
  | ofUnsigned => "UiToFp" | ofSigned => "SiToFp"

end FloatCastOp

namespace Intrinsic

def plain : List (String × Intrinsic) :=
  [("Malloc", .malloc), ("Calloc", .calloc), ("Realloc", .realloc), ("Free", .free),
   ("Assume", .assume), ("Abort", .abort), ("Exit", .exit), ("Fork", .fork),
   ("SetForking", .setForking), ("ThreadCreate", .threadCreate), ("ThreadExit", .threadExit),
   ("ThreadYield", .threadYield), ("ThreadSleep", .threadSleep), ("GetWaitList", .getWaitList)]

def ofForm? (j : Json) : Option Intrinsic := do
  match ← j.tagged? with
  | ("MakeSymbolic", some c) =>
    return .makeSymbolic (← ((← c.record? ["name"]).field "name").str?)
  | ("Assert", some c) => return .assert (← ((← c.record? ["message"]).field "message").str?)
  | ("ThreadNotify", some c) => return .threadNotify (← ((← c.record? ["all"]).field "all").bool?)
  | (tag, none) | (tag, some .null) => plain.lookup tag
  | _ => none

def toForm : Intrinsic → Json
  | .makeSymbolic name => .tagged "MakeSymbolic" (.object [("name", .str name)])
  | .assert message => .tagged "Assert" (.object [("message", .str message)])
  | .threadNotify all => .tagged "ThreadNotify" (.object [("all", .bool all)])
  | i => .ofOption (fun p ↦ .str p.1) (plain.find? (·.2 = i))

end Intrinsic

namespace Callee

def ofForm? (j : Json) : Option Callee := do
  match ← j.tagged? with
  | ("Function", some f) => return .function (← f.half?)
  | ("Pointer", some p) => return .pointer (← Operand.ofForm? p)
  | ("Intrinsic", some i) => return .intrinsic (← Intrinsic.ofForm? i)
  | _ => none

def toForm : Callee → Json
  | .function f => .tagged "Function" (.nat f)
  | .pointer p => .tagged "Pointer" p.toForm
  | .intrinsic i => .tagged "Intrinsic" i.toForm

end Callee

namespace Instruction

def choice? {α : Type} (all : List α) (text : α → String) (j : Json) : Option α :=
  j.tag?.bind (ofText? all text)

def fieldNames : String → List String
  | "Ret" => ["value"]
  | "Br" => ["target"]
  | "CondBr" => ["condition", "if_true", "if_false"]
  | "Switch" => ["condition", "default", "cases"]
  | "Call" => ["callee", "arguments", "destination"]
  | "Binary" | "FBinary" => ["op", "lhs", "rhs", "destination"]
  | "ICmp" | "FCmp" => ["predicate", "lhs", "rhs", "destination"]
  | "Select" => ["condition", "if_true", "if_false", "destination"]
  | "Cast" | "FCast" => ["op", "value", "width", "destination"]
  | "Alloca" => ["element_size", "count", "destination"]
  | "Load" => ["address", "width", "destination"]
  | "Store" => ["address", "value"]
  | "GetElementPtr" => ["base", "indices", "offset", "destination"]
  | "Phi" => ["incoming", "destination"]
  | "Unsupported" => ["name"]
  | _ => []

def ofFields? (tag : String) (c : Json) : Option Instruction := do
  let operand (name : String) := Operand.ofForm? (c.field name)
  let half (name : String) := (c.field name).half?
  match tag with
  | "Ret" => return .ret (← (c.field "value").optional? Operand.ofForm?)
  | "Br" => return .br (← half "target")
  | "CondBr" => return .condBr (← operand "condition") (← half "if_true") (← half "if_false")
  | "Switch" =>
    return .switch (← operand "condition") (← half "default")
      (← (c.field "cases").listOf? (Json.pair? Json.word? Json.half?))
  | "Call" =>
    return .call (← Callee.ofForm? (c.field "callee"))
      (← (c.field "arguments").listOf? Operand.ofForm?)
      (← (c.field "destination").optional? Json.half?)
  | "Binary" =>
    return .binary (← (c.field "op").tag?.bind BinOp.ofText?) (← operand "lhs") (← operand "rhs")
      (← half "destination")
  | "ICmp" =>
    return .icmp (← choice? IntPredicate.all IntPredicate.text (c.field "predicate"))
      (← operand "lhs") (← operand "rhs") (← half "destination")
  | "Select" =>
    return .select (← operand "condition") (← operand "if_true") (← operand "if_false")
      (← half "destination")
  | "Cast" =>
    return .cast (← choice? CastOp.all CastOp.text (c.field "op")) (← operand "value")
      (← half "width") (← half "destination")
  | "FBinary" =>
    return .fbinary (← choice? FloatOp.all FloatOp.text (c.field "op")) (← operand "lhs")
      (← operand "rhs") (← half "destination")
  | "FCmp" =>
    return .fcmp (← choice? FloatPredicate.all FloatPredicate.text (c.field "predicate"))
      (← operand "lhs") (← operand "rhs") (← half "destination")
  | "FCast" =>
    return .fcast (← choice? FloatCastOp.all FloatCastOp.text (c.field "op")) (← operand "value")
      (← half "width") (← half "destination")
  | "Alloca" =>
    return .alloca (← (c.field "element_size").word?) (← operand "count") (← half "destination")
  | "Load" => return .load (← operand "address") (← half "width") (← half "destination")
  | "Store" => return .store (← operand "address") (← operand "value")
  | "GetElementPtr" =>
    return .elementPtr (← operand "base")
      (← (c.field "indices").listOf? (Json.pair? Operand.ofForm? Json.word?))
      (← (c.field "offset").word?) (← half "destination")
  | "Phi" =>
    return .phi (← (c.field "incoming").listOf? (Json.pair? Json.half? Operand.ofForm?))
      (← half "destination")
  | "Unsupported" => return .unsupported (← (c.field "name").str?)
  | _ => none

def ofForm? (j : Json) : Option Instruction := do
  if j.tag? = some "Unreachable" then return .unreachable
  match ← j.tagged? with
  | (tag, some content) => ofFields? tag (← content.record? (fieldNames tag))
  | _ => none

def toForm (i : Instruction) : Json :=
  let make (tag : String) (fields : List (String × Json)) := Json.tagged tag (.object fields)
  let destination (d : Register) := ("destination", Json.nat d)
  match i with
  | .ret value => make "Ret" [("value", .ofOption (·.toForm) value)]
  | .br target => make "Br" [("target", .nat target)]
  | .condBr c t f =>
    make "CondBr" [("condition", c.toForm), ("if_true", .nat t), ("if_false", .nat f)]
  | .switch c d cases =>
    make "Switch" [("condition", c.toForm), ("default", .nat d),
      ("cases", .ofList (fun (v, b) ↦ .list [.nat v, .nat b]) cases)]
  | .unreachable => .str "Unreachable"
  | .call callee arguments d =>
    make "Call" [("callee", callee.toForm), ("arguments", .ofList (·.toForm) arguments),
      ("destination", .ofOption .nat d)]
  | .binary op l r d =>
    make "Binary" [("op", .str op.text), ("lhs", l.toForm), ("rhs", r.toForm), destination d]
  | .icmp p l r d =>
    make "ICmp" [("predicate", .str p.text), ("lhs", l.toForm), ("rhs", r.toForm), destination d]
  | .select c t f d =>
    make "Select" [("condition", c.toForm), ("if_true", t.toForm), ("if_false", f.toForm),
      destination d]
  | .cast op v w d =>
    make "Cast" [("op", .str op.text), ("value", v.toForm), ("width", .nat w), destination d]
  | .fbinary op l r d =>
    make "FBinary" [("op", .str op.text), ("lhs", l.toForm), ("rhs", r.toForm), destination d]
  | .fcmp p l r d =>
    make "FCmp" [("predicate", .str p.text), ("lhs", l.toForm), ("rhs", r.toForm), destination d]
  | .fcast op v w d =>
    make "FCast" [("op", .str op.text), ("value", v.toForm), ("width", .nat w), destination d]
  | .alloca size count d =>
    make "Alloca" [("element_size", .nat size), ("count", count.toForm), destination d]
  | .load address w d =>
    make "Load" [("address", address.toForm), ("width", .nat w), destination d]
  | .store address value => make "Store" [("address", address.toForm), ("value", value.toForm)]
  | .elementPtr base indices offset d =>
    make "GetElementPtr" [("base", base.toForm),
      ("indices", .ofList (fun (o, n) ↦ .list [o.toForm, .nat n]) indices),
      ("offset", .nat offset), destination d]
  | .phi incoming d =>
    make "Phi" [("incoming", .ofList (fun (b, o) ↦ .list [.nat b, o.toForm]) incoming),
      destination d]
  | .unsupported name => make "Unsupported" [("name", .str name)]

end Instruction

namespace Constant

def ofForm? (j : Json) : Option Constant := do
  match ← j.tagged? with
  | ("Int", some c) =>
    let c ← c.record? ["value", "width"]
    return .int (← (c.field "value").word?) (← (c.field "width").half?)
  | ("GlobalAddress", some c) =>
    let c ← c.record? ["global", "offset"]
    return .globalAddress (← (c.field "global").half?) (← (c.field "offset").word?)
  | ("FunctionAddress", some f) => return .functionAddress (← f.half?)
  | ("Null", none) | ("Null", some .null) => return .null
  | _ => none

def toForm : Constant → Json
  | .int value width => .tagged "Int" (.object [("value", .nat value), ("width", .nat width)])
  | .globalAddress g offset =>
    .tagged "GlobalAddress" (.object [("global", .nat g), ("offset", .nat offset)])
  | .functionAddress f => .tagged "FunctionAddress" (.nat f)
  | .null => .str "Null"

end Constant

def Bytes.ofNumbers? (j : Json) : Option ByteArray := do
  (← j.list?).foldlM (fun bytes n ↦ do return bytes.push (← n.natBelow? 256).toUInt8) .empty

namespace Global

def ofForm? (j : Json) : Option Global := do
  let j ← j.record? ["name", "size", "initializer", "read_only"]
  return ⟨← (j.field "name").str?, ← (j.field "size").word?,
    ← (j.field "initializer").optional? Bytes.ofNumbers?, ← (j.field "read_only").bool?⟩

def toForm (g : Global) : Json :=
  .object [("name", .str g.name), ("size", .nat g.size),
    ("initializer", .ofOption (fun b ↦ .ofList (fun x ↦ .nat x.toNat) b.toList) g.initializer),
    ("read_only", .bool g.readOnly)]

end Global

namespace Function

def bodyOfForm? (j : Json) : Option FunctionBody := do
  match ← j.tagged? with
  | ("Defined", some c) =>
    let blocks ← ((← c.record? ["blocks"]).field "blocks").listOf? fun b ↦ do
      ((← b.record? ["instructions"]).field "instructions").listOf? Instruction.ofForm?
    return .defined (blocks.map (·.toArray)).toArray
  | ("External", some c) =>
    let c ← c.record? ["result_width"]
    return .external (← (c.field "result_width").optional? Json.half?)
  | _ => none

def ofForm? (j : Json) : Option Function := do
  let j ← j.record? ["name", "parameters", "variadic", "registers", "body"]
  return ⟨← (j.field "name").str?, ← (j.field "parameters").half?, ← (j.field "variadic").bool?,
    ← (j.field "registers").half?, ← bodyOfForm? (j.field "body")⟩

def toForm (f : Function) : Json :=
  let body := match f.body with
    | .defined blocks =>
      Json.tagged "Defined" (.object [("blocks", .ofList (fun b ↦
        .object [("instructions", .ofList (·.toForm) b.toList)]) blocks.toList)])
    | .external w => .tagged "External" (.object [("result_width", .ofOption .nat w)])
  .object [("name", .str f.name), ("parameters", .nat f.parameters), ("variadic", .bool f.variadic),
    ("registers", .nat f.registers), ("body", body)]

end Function

namespace Program

def ofForm? (j : Json) : Option Program := do
  let j ← j.record? ["functions", "globals", "constants", "entry"]
  return ⟨(← (j.field "functions").listOf? Function.ofForm?).toArray,
    (← (j.field "globals").listOf? Global.ofForm?).toArray,
    (← (j.field "constants").listOf? Constant.ofForm?).toArray, ← (j.field "entry").half?⟩

def toForm (p : Program) : Json :=
  .object [("functions", .ofList (·.toForm) p.functions.toList),
    ("globals", .ofList (·.toForm) p.globals.toList),
    ("constants", .ofList (·.toForm) p.constants.toList), ("entry", .nat p.entry)]

end Program

end Symex
