import Symex.Solver.Basic
import Symex.Text

namespace Symex.Smt

/-- An answer. -/
inductive SExpr where
  | atom (text : String)
  | list (items : List SExpr)

/-- The pieces of an answer. -/
inductive Token where
  | opening
  | closing
  | atom (text : String)
deriving DecidableEq

namespace Token

/-- What kind of word is being read. -/
inductive Mode where
  | none
  /-- Up to a blank or a parenthesis. -/
  | bare
  /-- Up to a bar, which belongs to it. -/
  | quoted
  /-- Up to a quotation mark, which does not. -/
  | text
deriving DecidableEq

/-- A word whose characters were collected backwards. -/
def ofReversed (cs : List Char) : Token := .atom (String.ofList cs.reverse)

def start (c : Char) : Option Token × Mode × List Char :=
  if c = '(' then (some .opening, .none, [])
  else if c = ')' then (some .closing, .none, [])
  else if c = '|' then (none, .quoted, ['|'])
  else if c = '"' then (none, .text, [])
  else if isBlank c then (none, .none, [])
  else (none, .bare, [c])

/-- The pieces of a text, where `word` was read of a word of a kind. A word that is cut off counts. -/
def scan : Mode → List Char → List Char → List Token
  | .none, _, [] => []
  | _, word, [] => [ofReversed word]
  | .none, _, c :: rest =>
    let (token, mode, word) := start c
    token.toList ++ scan mode word rest
  | .bare, word, c :: rest =>
    if isBlank c || c = '(' || c = ')' then
      let (token, mode, next) := start c
      ofReversed word :: (token.toList ++ scan mode next rest)
    else scan .bare (c :: word) rest
  | .quoted, word, c :: rest =>
    if c = '|' then ofReversed (c :: word) :: scan .none [] rest else scan .quoted (c :: word) rest
  | .text, word, c :: rest =>
    if c = '"' then ofReversed word :: scan .none [] rest else scan .text (c :: word) rest

def ofText (s : String) : List Token := scan .none [] s.toList

end Token

namespace SExpr

/-- Reads pieces onto lists that are not closed, the innermost first, each with its items backwards. -/
def build : List (List SExpr) → List Token → Option (List (List SExpr))
  | stack, [] => some stack
  | stack, .opening :: rest => build ([] :: stack) rest
  | inner :: outer :: stack, .closing :: rest =>
    build ((.list inner.reverse :: outer) :: stack) rest
  | _, .closing :: _ => none
  | top :: stack, .atom s :: rest => build ((.atom s :: top) :: stack) rest
  | [], .atom _ :: _ => none

def parse (s : String) : Except SolverError SExpr :=
  match build [[]] (Token.ofText s) with
  | some [[e]] => .ok e
  | some [_] => .error (.response s "expected a single expression")
  | _ => .error (.response s "unbalanced parentheses")

def digit? (c : Char) : Option Nat :=
  if '0' ≤ c ∧ c ≤ '9' then some (c.toNat - 48)
  else if 'a' ≤ c ∧ c ≤ 'z' then some (c.toNat - 87)
  else if 'A' ≤ c ∧ c ≤ 'Z' then some (c.toNat - 55)
  else none

/-- A numeral that fits a machine word, which may have a plus sign. -/
def numeral? (radix : Nat) (cs : List Char) : Option Nat := do
  let digits := match cs with
    | '+' :: rest => rest
    | cs => cs
  guard (!digits.isEmpty)
  let n ← digits.foldlM (fun n c ↦ do
    let d ← digit? c
    guard (d < radix)
    return n * radix + d) 0
  guard (n < pow2 64)
  return n

/-- The bit vector that an expression stands for. -/
def bits? : SExpr → Option Nat
  | .atom s =>
    match s.toList with
    | '#' :: 'b' :: digits => numeral? 2 digits
    | '#' :: 'x' :: digits => numeral? 16 digits
    | _ => none
  | .list [.atom "_", .atom s, .atom _] =>
    match s.toList with
    | 'b' :: 'v' :: digits => numeral? 10 digits
    | _ => none
  | .list _ => none

def boundValue (s : String) : SExpr → Except SolverError Nat
  | .list [_, value] =>
    match value.bits? with
    | some n => .ok n
    | none => .error (.response s "expected a bit-vector")
  | _ => .error (.response s "expected a (term value) pair")

def parseValues (s : String) : Except SolverError (List Nat) := do
  match ← parse s with
  | .list bindings => bindings.mapM (boundValue s)
  | .atom _ => throw (.response s "expected a list of bindings")

end SExpr

/-- The number of parentheses that are opened more often than closed. -/
def openParens (s : String) : Int :=
  s.toList.foldl (fun n c ↦ if c = '(' then n + 1 else if c = ')' then n - 1 else n) 0

end Symex.Smt
