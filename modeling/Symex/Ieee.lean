import Symex.Arithmetic

namespace Symex.Ieee

/-- A format: the number of bits of the exponent and of the fraction. -/
structure Format where
  exponentBits : Nat
  fractionBits : Nat
deriving DecidableEq

def single : Format := ⟨8, 23⟩
def double : Format := ⟨11, 52⟩

namespace Format

def width (f : Format) : Nat := 1 + f.exponentBits + f.fractionBits

/-- The exponent field of infinities and of what is no number. -/
def topExponent (f : Format) : Nat := pow2 f.exponentBits - 1

def bias (f : Format) : Nat := pow2 (f.exponentBits - 1) - 1

/-- The exponent of the last bit of the smallest numbers. -/
def least (f : Format) : Int := 1 - (f.bias : Int) - f.fractionBits

def ofWidth? (width : Nat) : Option Format :=
  if width = 32 then some single else if width = 64 then some double else none

end Format

/-- A value: `mantissa · pow2 exponent` with a sign where it is finite. -/
inductive Value where
  | nan
  | infinite (negative : Bool)
  | finite (negative : Bool) (mantissa : Nat) (exponent : Int)

def decode (f : Format) (bits : Nat) : Value :=
  let fraction := bits % pow2 f.fractionBits
  let exponent := bits / pow2 f.fractionBits % pow2 f.exponentBits
  let negative := bits.testBit (f.width - 1)
  if exponent = f.topExponent then (if fraction = 0 then .infinite negative else .nan)
  else if exponent = 0 then .finite negative fraction f.least
  else .finite negative (fraction + pow2 f.fractionBits) (exponent - 1 + f.least)

/-- The bits of a sign, an exponent field and a fraction. -/
def assemble (f : Format) (negative : Bool) (exponent fraction : Nat) : Nat :=
  negative.toNat * pow2 (f.width - 1) + exponent * pow2 f.fractionBits + fraction

/-- The bits of something that is no number, with any sign and any fraction but zero. -/
def nanBits (f : Format) (negative : Bool) (payload : Nat) : Nat :=
  assemble f negative f.topExponent (max 1 (payload % pow2 f.fractionBits))

def infinityBits (f : Format) (negative : Bool) : Nat := assemble f negative f.topExponent 0

def leadingExponent (n d : Nat) : Int :=
  let k : Int := (n.log2 : Int) - d.log2
  let reaches := if 0 ≤ k then d * pow2 k.toNat ≤ n else d ≤ n * pow2 (-k).toNat
  if reaches then k else k - 1

/-- The quotient, rounded to the nearest integer, to the even one of two. -/
def roundDiv (n d : Nat) : Nat :=
  let q := n / d
  let r := n % d
  if d < 2 * r ∨ (2 * r = d ∧ q % 2 = 1) then q + 1 else q

/-- The bits of the number nearest to `n / d · pow2 e`. -/
def round (f : Format) (negative : Bool) (n d : Nat) (e : Int) : Nat :=
  if n = 0 then assemble f negative 0 0
  else
    let last := max (leadingExponent n d + e - f.fractionBits) f.least
    let shift := e - last
    let q := if 0 ≤ shift then roundDiv (n * pow2 shift.toNat) d else roundDiv n (d * pow2 (-shift).toNat)
    let (q, last) := if q = pow2 (f.fractionBits + 1) then (q / 2, last + 1) else (q, last)
    if q < pow2 f.fractionBits then assemble f negative 0 q
    else
      let exponent := (last - f.least + 1).toNat
      if f.topExponent ≤ exponent then infinityBits f negative
      else assemble f negative exponent (q - pow2 f.fractionBits)

/-- The bits in another format. What is no number stays quiet, with its sign and the upper bits of its
fraction. -/
def convert (f g : Format) (bits : Nat) : Nat :=
  if f = g then bits
  else match decode f bits with
    | .nan =>
      let fraction := bits % pow2 f.fractionBits
      let fraction := fraction * pow2 g.fractionBits / pow2 f.fractionBits
      assemble g (bits.testBit (f.width - 1)) g.topExponent (fraction ||| pow2 (g.fractionBits - 1))
    | .infinite negative => infinityBits g negative
    | .finite negative m e => round g negative m 1 e

/-- The exact sum of two finite numbers as an integer at the lower of the two exponents. -/
def scaled (negative : Bool) (m : Nat) (e low : Int) : Int :=
  let n : Int := m * pow2 (e - low).toNat
  if negative then -n else n

/-- Sums; a sum that is zero is positive unless both operands are negative. A result that is no number has
the bits `nan`. -/
def add (f : Format) (nan : Nat) : Value → Value → Nat
  | .nan, _ | _, .nan => nan
  | .infinite a, .infinite b => if a = b then infinityBits f a else nan
  | .infinite a, _ => infinityBits f a
  | _, .infinite b => infinityBits f b
  | .finite a m e, .finite b n d =>
    let low := min e d
    let sum := scaled a m e low + scaled b n d low
    if sum = 0 then assemble f (a && b) 0 0 else round f (sum < 0) sum.natAbs 1 low

def negate : Value → Value
  | .nan => .nan
  | .infinite a => .infinite !a
  | .finite a m e => .finite (!a) m e

def mul (f : Format) (nan : Nat) : Value → Value → Nat
  | .nan, _ | _, .nan => nan
  | .infinite a, .infinite b => infinityBits f (a ^^ b)
  | .infinite a, .finite b m _ | .finite b m _, .infinite a =>
    if m = 0 then nan else infinityBits f (a ^^ b)
  | .finite a m e, .finite b n d => round f (a ^^ b) (m * n) 1 (e + d)

def div (f : Format) (nan : Nat) : Value → Value → Nat
  | .nan, _ | _, .nan | .infinite _, .infinite _ => nan
  | .infinite a, .finite b _ _ => infinityBits f (a ^^ b)
  | .finite a _ _, .infinite b => assemble f (a ^^ b) 0 0
  | .finite a m e, .finite b n d =>
    if n = 0 then (if m = 0 then nan else infinityBits f (a ^^ b))
    else round f (a ^^ b) m n (e - d)

/-- The remainder of truncating division, with the sign of the dividend. -/
def rem (f : Format) (nan : Nat) : Value → Value → Nat
  | .nan, _ | _, .nan | .infinite _, _ => nan
  | .finite a m e, .infinite _ => round f a m 1 e
  | .finite a m e, .finite _ n d =>
    if n = 0 then nan
    else
      let low := min e d
      round f a (m * pow2 (e - low).toNat % (n * pow2 (d - low).toNat)) 1 low

/-- How two values compare; nothing where one of them is no number. -/
def compare? : Value → Value → Option Ordering
  | .nan, _ | _, .nan => none
  | .infinite a, .infinite b => some (compare (!a) (!b))
  | .infinite a, .finite _ _ _ => some (if a then .lt else .gt)
  | .finite _ _ _, .infinite b => some (if b then .gt else .lt)
  | .finite a m e, .finite b n d =>
    let low := min e d
    some (compare (scaled a m e low) (scaled b n d low))

def truncate (negative : Bool) (m : Nat) (e : Int) : Int :=
  let n : Nat := if 0 ≤ e then m * pow2 e.toNat else m / pow2 (-e).toNat
  if negative then -(n : Int) else n

/-- The integer part, as far as it lies between two bounds; zero for what is no number. -/
def toInt (low high : Int) : Value → Int
  | .nan => 0
  | .infinite negative => if negative then low else high
  | .finite negative m e => min high (max low (truncate negative m e))

/-- The bits of the number nearest to an integer. -/
def ofInt (f : Format) (n : Int) : Nat := round f (n < 0) n.natAbs 1 0

end Symex.Ieee
