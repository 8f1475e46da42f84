import Symex.Arithmetic
import Symex.Fault

namespace Symex

def maxWidth : Nat := 64

/-- The least number that does not fit a machine word. -/
def wordLimit : Nat := pow2 64

namespace Bits

/-- The low `width` bits of `value`. Values that already fit are returned as they are, which spares
the division. -/
@[inline] def trunc (width value : Nat) : Nat :=
  if value >>> width = 0 then value else value % pow2 width

theorem trunc_eq_mod (width value : Nat) : trunc width value = value % pow2 width := by
  unfold trunc
  split
  · rename_i h
    rw [Nat.shiftRight_eq_div_pow, Nat.div_eq_zero_iff] at h
    exact (Nat.mod_eq_of_lt (h.resolve_left (Nat.ne_of_gt (Nat.two_pow_pos width)))).symm
  · rfl

theorem trunc_lt (width value : Nat) : trunc width value < pow2 width := by
  rw [trunc_eq_mod]; exact Nat.mod_lt _ (Nat.two_pow_pos width)

/-- The word of `width` one bits, no wider than a machine word. -/
def mask (width : Nat) : Nat := pow2 (min width 64) - 1

@[inline] def isNegative (width value : Nat) : Bool := value.testBit (width - 1)

/-- The two's complement reading of the low `width` bits of `value`. -/
@[inline] def toSigned (width value : Nat) : Int :=
  let v := trunc width value
  if isNegative width v then (v : Int) - (pow2 width : Nat) else v

/-- The word of `width` bits that stands for the integer `value` in two's complement. -/
@[inline] def ofSigned (width : Nat) (value : Int) : Nat :=
  if 0 ≤ value then trunc width value.toNat else (value % (pow2 width : Nat)).toNat

@[inline] def byteCount (width : Nat) : Nat := (width + 7) / 8

/-- Addition of machine words that has to stay in range. -/
@[inline] def addChecked (a b : Nat) : Checked Nat :=
  if a + b < wordLimit then .ok (a + b) else .error .overflow

/-- The two's complement reading of a value whose width is checked first. -/
def toSignedChecked (value width : Nat) : Checked Int := do
  demand (0 < width ∧ width ≤ maxWidth) .overflow
  return toSigned width value

/-- The number of bytes for a width that is checked first. -/
def byteCountChecked (width : Nat) : Checked Nat := do
  demand (width + 7 < pow2 32) .overflow
  return byteCount width

end Bits

end Symex
