import Symex.Smt.Session
import Symex.Solver.Form

namespace Symex.Smt

def SExpr.toForm : SExpr → Json
  | .atom s => .str s
  | .list items => .list (items.map toForm)

def responseForm (s : String) : Json :=
  let parsed := SExpr.parse s
  .object [("parsed", answerForm SExpr.toForm parsed),
    ("bitvector", .ofOption .nat (parsed.toOption.bind SExpr.bits?)),
    ("values", answerForm (.ofList .nat) (SExpr.parseValues s)), ("parens", .int (openParens s))]

def Binary.toForm (b : Binary) : Json :=
  .object [("name", .str b.name), ("args", .ofList .str b.arguments),
    ("options", .ofList .str b.options), ("timeout_option", .ofOption .str b.timeoutOption)]

/-- A reply that begins with a mark ends its process. -/
def Reply.ofText (s : String) : Reply :=
  if s.startsWith "!exit:" then ⟨(s.drop 6).toString, true⟩ else ⟨s, false⟩

def Script.text (s : Script) : String :=
  s.preamble.foldl (fun out c ↦ out ++ c.text ++ "\n") ""

end Symex.Smt
