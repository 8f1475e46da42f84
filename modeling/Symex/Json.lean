import Symex.Arithmetic
import Symex.Fault

namespace Symex

inductive Json where
  | null
  | bool (b : Bool)
  | int (n : Int)
  /-- A number that is not an integer. No document of this library holds one. -/
  | fraction
  | str (s : String)
  | list (items : List Json)
  | object (fields : List (String × Json))

instance : Inhabited Json := ⟨.null⟩

namespace Json

def nat (n : Nat) : Json := .int n

def ofOption {α : Type} (f : α → Json) : Option α → Json
  | some a => f a
  | none => .null

def ofList {α : Type} (f : α → Json) (l : List α) : Json := .list (l.map f)

/-- The field called `name`; a missing field counts as null. -/
def field (j : Json) (name : String) : Json :=
  match j with
  | .object fields => (fields.lookup name).getD .null
  | _ => .null

/-- The item at `i`; a missing item counts as null. -/
def item (j : Json) (i : Nat) : Json :=
  match j with
  | .list items => items[i]?.getD .null
  | _ => .null

def int? : Json → Option Int
  | .int n => some n
  | _ => none

def natBelow? (limit : Nat) : Json → Option Nat
  | .int n => if 0 ≤ n ∧ n < limit then some n.toNat else none
  | _ => none

def word? : Json → Option Nat := natBelow? (pow2 64)

def half? : Json → Option Nat := natBelow? (pow2 32)

def str? : Json → Option String
  | .str s => some s
  | _ => none

def bool? : Json → Option Bool
  | .bool b => some b
  | _ => none

def list? : Json → Option (List Json)
  | .list l => some l
  | _ => none

def optional? {α : Type} (f : Json → Option α) : Json → Option (Option α)
  | .null => some none
  | j => (f j).map some

def listOf? {α : Type} (f : Json → Option α) (j : Json) : Option (List α) := do
  (← j.list?).mapM f

/-- A list of things that `f` reads, where null is the empty list. -/
def listOrNull? {α : Type} (f : Json → Option α) : Json → Option (List α)
  | .null => some []
  | j => j.listOf? f

/-- Something that `f` reads, or `default` for null. -/
def orElse? {α : Type} (default : α) (f : Json → Option α) : Json → Option α
  | .null => some default
  | j => f j

def pair? {α β : Type} (f : Json → Option α) (g : Json → Option β) : Json → Option (α × β)
  | .list [a, b] => do return (← f a, ← g b)
  | _ => none

/-- A record as an object. It may also be written as the list of its fields in the order of `names`, of
which the first `least` cannot be left out. -/
def record? (names : List String) (j : Json) (least : Nat := names.length) : Option Json :=
  match j with
  | .object fields => some (.object fields)
  | .list items =>
    if least ≤ items.length ∧ items.length ≤ names.length then some (.object (names.zip items))
    else none
  | _ => none

/-- A choice with content, written as an object with one field. -/
def tagged (tag : String) (content : Json) : Json := .object [(tag, content)]

/-- The tag and the content of a choice; a bare string is a tag without content. -/
def tagged? : Json → Option (String × Option Json)
  | .str tag => some (tag, none)
  | .object [(tag, content)] => some (tag, some content)
  | _ => none

/-- A tag that stands alone, as a string or over nothing. -/
def tag? (j : Json) : Option String :=
  match j.tagged? with
  | some (tag, none) | some (tag, some .null) => some tag
  | _ => none

end Json

namespace Bytes

def hexDigit (n : Nat) : Char :=
  if n < 10 then Char.ofNat (48 + n) else Char.ofNat (87 + n)

def toHex (bytes : ByteArray) : String :=
  bytes.foldl (fun s b ↦ (s.push (hexDigit (b.toNat / 16))).push (hexDigit (b.toNat % 16))) ""

def hexValue? (c : Char) : Option Nat :=
  if '0' ≤ c ∧ c ≤ '9' then some (c.toNat - 48)
  else if 'a' ≤ c ∧ c ≤ 'f' then some (c.toNat - 87)
  else if 'A' ≤ c ∧ c ≤ 'F' then some (c.toNat - 55)
  else none

/-- Reads pairs of digits onto the end of `bytes`. -/
def ofHexDigits? (bytes : ByteArray) : List Char → Option ByteArray
  | [] => some bytes
  | a :: b :: rest => do
    let high ← hexValue? a
    let low ← hexValue? b
    ofHexDigits? (bytes.push (high * 16 + low).toUInt8) rest
  | [_] => none

def ofHex? (s : String) : Option ByteArray := ofHexDigits? .empty s.toList

end Bytes

namespace Json

def hex (bytes : ByteArray) : Json := .str (Bytes.toHex bytes)

def hex? (j : Json) : Option ByteArray := j.str?.bind Bytes.ofHex?

end Json

end Symex
