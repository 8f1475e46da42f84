import Symex.Expr.Text

namespace Symex

/-- The hexadecimal numeral of `n` with its mark. -/
def hexadecimal (n : Nat) : String := "0x" ++ String.ofList (Nat.toDigits 16 n)

def blanks : List (Nat × Nat) :=
  [(0x09, 0x0d), (0x20, 0x20), (0x85, 0x85), (0xa0, 0xa0), (0x1680, 0x1680), (0x2000, 0x200a),
   (0x2028, 0x2029), (0x202f, 0x202f), (0x205f, 0x205f), (0x3000, 0x3000)]

def isBlank (c : Char) : Bool := blanks.any fun (low, high) ↦ low ≤ c.toNat ∧ c.toNat ≤ high

def trimStart (s : String) : String := String.ofList (s.toList.dropWhile isBlank)

def trim (s : String) : String :=
  String.ofList (((trimStart s).toList.reverse.dropWhile isBlank).reverse)

/-- The lines of a text. One that ends with a line break has an empty last line. -/
def lines (s : String) : List String := (s.toList.splitOn '\n').map String.ofList

namespace Quoted

/-- Ranges of characters without a visible form of their own. -/
def hidden : List (Nat × Nat) :=
  [(0x00, 0x1f), (0x7f, 0xa0), (0xad, 0xad), (0x300, 0x36f), (0x483, 0x489), (0x591, 0x5bd),
   (0x600, 0x605), (0x61c, 0x61c), (0x6dd, 0x6dd), (0x70f, 0x70f), (0x1680, 0x1680),
   (0x180e, 0x180e), (0x1ab0, 0x1ace), (0x1dc0, 0x1dff), (0x2000, 0x200f), (0x2028, 0x202f),
   (0x205f, 0x206f), (0x20d0, 0x20f0), (0x3000, 0x3000), (0xd800, 0xf8ff), (0xfe00, 0xfe0f),
   (0xfe20, 0xfe2f), (0xfeff, 0xfeff), (0xfff0, 0xfffb), (0xfffe, 0xffff),
   (0xe0000, 0x10ffff)]

/-- The form of a character between quotation marks. -/
def encodeChar (c : Char) : String :=
  if c = '"' then "\\\""
  else if c = '\\' then "\\\\"
  else if c = '\n' then "\\n"
  else if c = '\r' then "\\r"
  else if c = '\t' then "\\t"
  else if c.toNat = 0 then "\\0"
  else if hidden.any fun (low, high) ↦ low ≤ c.toNat ∧ c.toNat ≤ high then
    "\\u\x7b" ++ String.ofList (Nat.toDigits 16 c.toNat) ++ "\x7d"
  else c.toString

/-- A string between quotation marks, with marks, backslashes and hidden characters escaped. -/
def encode (s : String) : String :=
  s.foldl (fun out c ↦ out ++ encodeChar c) "\"" ++ "\""

end Quoted

end Symex
