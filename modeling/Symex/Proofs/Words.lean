import Mathlib.Algebra.Group.Nat.Defs
import Symex.Expr.Fold

namespace Symex

theorem wordLimit_eq : wordLimit = 2 ^ 64 := rfl

/-- What an operation means in the logic of bit-vectors: division by zero gives all ones, remainder
by zero the dividend, and shifts go on past the width. -/
def BinOp.denote {w : Nat} (op : BinOp) (x y : BitVec w) : BitVec w :=
  match op with
  | .add => x + y
  | .sub => x - y
  | .mul => x * y
  | .udiv => x.smtUDiv y
  | .sdiv => x.smtSDiv y
  | .urem => x.umod y
  | .srem => x.srem y
  | .and => x &&& y
  | .or => x ||| y
  | .xor => x ^^^ y
  | .shl => x <<< y
  | .lshr => x >>> y
  | .ashr => x.sshiftRight' y

def CmpOp.denote {w : Nat} (op : CmpOp) (x y : BitVec w) : Bool :=
  match op with
  | .eq => x == y
  | .ult => x.ult y
  | .ule => x.ule y
  | .slt => x.slt y
  | .sle => x.sle y

namespace Bits

theorem trunc_eq (w v : Nat) : trunc w v = v % 2 ^ w := trunc_eq_mod w v

theorem trunc_of_lt {w v : Nat} (h : v < 2 ^ w) : trunc w v = v := by
  rw [trunc_eq]
  exact Nat.mod_eq_of_lt h

theorem trunc_eq_toNat (w v : Nat) : trunc w v = (BitVec.ofNat w v).toNat := by
  rw [trunc_eq, BitVec.toNat_ofNat]

@[simp] theorem trunc_toNat {w : Nat} (x : BitVec w) : trunc w x.toNat = x.toNat := trunc_of_lt x.isLt

theorem toSigned_toNat {w : Nat} (x : BitVec w) : toSigned w x.toNat = x.toInt := by
  have hm : isNegative w x.toNat = x.msb := by
    rw [isNegative, BitVec.msb_eq_getLsbD_last, BitVec.getLsbD]
  simp only [toSigned, trunc_toNat, hm, BitVec.toInt_eq_msb_cond]
  rfl

theorem toSigned_eq_toInt (w v : Nat) : toSigned w v = (BitVec.ofNat w v).toInt := by
  rw [← toSigned_toNat, ← trunc_eq_toNat]
  simp only [toSigned, trunc_of_lt (trunc_lt w v)]

theorem ofSigned_eq_toNat (w : Nat) (i : Int) : ofSigned w i = (BitVec.ofInt w i).toNat := by
  rw [BitVec.toNat_ofInt, ofSigned]
  split
  · rename_i h
    obtain ⟨n, rfl⟩ := Int.eq_ofNat_of_zero_le h
    rw [trunc_eq, Int.toNat_natCast, ← Int.natCast_emod, Int.toNat_natCast]
  · rfl

theorem ofSigned_lt (w : Nat) (i : Int) : ofSigned w i < 2 ^ w := by
  rw [ofSigned_eq_toNat]
  exact (BitVec.ofInt w i).isLt

theorem testBit_append {x y n : Nat} (hy : y < 2 ^ n) (i : Nat) :
    (x <<< n ||| y).testBit i = if i < n then y.testBit i else x.testBit (i - n) := by
  rw [Nat.testBit_or, Nat.testBit_shiftLeft]
  split
  · rename_i h
    simp [Nat.not_le.2 h]
  · rename_i h
    rw [Nat.testBit_lt_two_pow (Nat.lt_of_lt_of_le hy (Nat.pow_le_pow_right (by decide) (by omega)))]
    simp [Nat.not_lt.1 h]

theorem testBit_range (x offset n i : Nat) :
    (x >>> offset % 2 ^ n).testBit i = (decide (i < n) && x.testBit (offset + i)) := by
  rw [Nat.testBit_mod_two_pow, Nat.testBit_shiftRight]

theorem range_lt (x offset n : Nat) : x >>> offset % 2 ^ n < 2 ^ n := Nat.mod_lt _ (Nat.two_pow_pos n)

theorem append_assoc (x y z m n : Nat) :
    (x <<< m ||| y) <<< n ||| z = x <<< (m + n) ||| (y <<< n ||| z) := by
  rw [Nat.shiftLeft_or_distrib, Nat.shiftLeft_add, Nat.or_assoc]

theorem append_ranges (x offset n m : Nat) :
    (x >>> (offset + n) % 2 ^ m) <<< n ||| (x >>> offset % 2 ^ n) = x >>> offset % 2 ^ (m + n) := by
  apply Nat.eq_of_testBit_eq
  intro i
  rw [testBit_append (range_lt _ _ _), testBit_range, testBit_range, testBit_range]
  split
  · rename_i h
    simp [h, show i < m + n by omega]
  · rename_i h
    rw [show offset + n + (i - n) = offset + i by omega]
    simp [show i - n < m ↔ i < m + n by omega]

theorem range_append_high {x y n offset : Nat} (hy : y < 2 ^ n) (h : n ≤ offset) (m : Nat) :
    (x <<< n ||| y) >>> offset % 2 ^ m = x >>> (offset - n) % 2 ^ m := by
  apply Nat.eq_of_testBit_eq
  intro i
  rw [testBit_range, testBit_range, testBit_append hy, if_neg (by omega),
    show offset + i - n = offset - n + i by omega]

theorem range_append_low {x y n offset m : Nat} (hy : y < 2 ^ n) (h : offset + m ≤ n) :
    (x <<< n ||| y) >>> offset % 2 ^ m = y >>> offset % 2 ^ m := by
  apply Nat.eq_of_testBit_eq
  intro i
  rw [testBit_range, testBit_range, testBit_append hy]
  by_cases hi : i < m
  · rw [if_pos (by omega)]
  · simp [hi]

theorem range_append {x y n offset m : Nat} (hy : y < 2 ^ n) (h : offset ≤ n)
    (hm : n ≤ offset + m) :
    (x <<< n ||| y) >>> offset % 2 ^ m =
      (x >>> 0 % 2 ^ (m - (n - offset))) <<< (n - offset) ||| (y >>> offset % 2 ^ (n - offset)) := by
  apply Nat.eq_of_testBit_eq
  intro i
  rw [testBit_append (range_lt _ _ _), testBit_range, testBit_range, testBit_range,
    testBit_append hy]
  by_cases hi : i < n - offset
  · rw [if_pos hi, if_pos (by omega)]
    simp [hi, show i < m by omega]
  · rw [if_neg hi, if_neg (by omega), show offset + i - n = 0 + (i - (n - offset)) by omega]
    simp [show i < m ↔ i - (n - offset) < m - (n - offset) by omega]

theorem range_range {offset n m offset' : Nat} (h : offset' + m ≤ n) (x : Nat) :
    (x >>> offset % 2 ^ n) >>> offset' % 2 ^ m = x >>> (offset + offset') % 2 ^ m := by
  apply Nat.eq_of_testBit_eq
  intro i
  rw [testBit_range, testBit_range, testBit_range, Nat.add_assoc]
  by_cases hi : i < m
  · simp [hi, show offset' + i < n by omega]
  · simp [hi]

theorem range_zero_of_lt {x w : Nat} (h : x < 2 ^ w) : x >>> 0 % 2 ^ w = x := by
  rw [Nat.shiftRight_zero, Nat.mod_eq_of_lt h]

theorem range_beyond {x n offset : Nat} (hx : x < 2 ^ n) (h : n ≤ offset) (m : Nat) :
    x >>> offset % 2 ^ m = 0 := by
  have hlt : x < 2 ^ offset := Nat.lt_of_lt_of_le hx (Nat.pow_le_pow_right (by decide) h)
  rw [Nat.shiftRight_eq_div_pow, Nat.div_eq_of_lt hlt, Nat.zero_mod]

end Bits

open Bits

variable {w : Nat}

theorem toInt_eq_zero_iff (x : BitVec w) : x.toInt = 0 ↔ x.toNat = 0 := by
  rw [show (0 : Int) = (0#w).toInt by simp, BitVec.toInt_inj, ← BitVec.toNat_inj,
    BitVec.toNat_zero]

theorem smtSDiv_zero (x : BitVec w) :
    (x.smtSDiv 0#w).toNat = if x.toInt < 0 then 1 % 2 ^ w else 2 ^ w - 1 := by
  have h0 : (0#w).msb = false := by simp
  rw [BitVec.smtSDiv, h0]
  cases hx : x.msb with
  | false =>
    have hn : ¬ x.toInt < 0 := by
      rw [BitVec.toInt_neg_iff]
      have := BitVec.msb_eq_false_iff_two_mul_lt.1 hx
      omega
    simp [BitVec.smtUDiv_eq, hn]
  | true =>
    have hn : x.toInt < 0 := by
      rw [BitVec.toInt_neg_iff]
      exact BitVec.msb_eq_true_iff_two_mul_ge.1 hx
    rw [if_pos hn]
    have hd : x.neg.smtUDiv (0#w) = BitVec.allOnes w := by simp [BitVec.smtUDiv_eq]
    simp only [hd]
    change (-BitVec.allOnes w).toNat = _
    rw [BitVec.toNat_neg, BitVec.toNat_allOnes]
    have := Nat.two_pow_pos w
    rw [show 2 ^ w - (2 ^ w - 1) = 1 by omega]

theorem smtSDiv_eq_sdiv (x : BitVec w) {y : BitVec w} (hy : y ≠ 0#w) : x.smtSDiv y = x.sdiv y := by
  have hn : y.neg ≠ 0 := fun h ↦ hy (by simpa using congrArg (fun z : BitVec w ↦ -z) h)
  have hy' : y ≠ 0 := hy
  simp only [BitVec.smtSDiv, BitVec.sdiv, BitVec.smtUDiv, hy', hn, if_false]

theorem sdiv_eq_ofInt (x y : BitVec w) : x.sdiv y = BitVec.ofInt w (x.toInt.tdiv y.toInt) := by
  apply BitVec.eq_of_toInt_eq
  rw [BitVec.toInt_ofInt, BitVec.toInt_sdiv]

theorem sshiftRight_of_le (x : BitVec w) {n : Nat} (h : w ≤ n) :
    (BitVec.ofInt w (x.toInt >>> n)).toNat = if x.toInt < 0 then 2 ^ w - 1 else 0 := by
  have hx := x.isLt
  have hpow : 2 ^ w ≤ 2 ^ n := Nat.pow_le_pow_right (by decide) h
  have hlo : -((2 ^ n : Nat) : Int) ≤ x.toInt := by
    rw [BitVec.toInt_eq_toNat_cond]
    split <;> omega
  have hhi : x.toInt < ((2 ^ n : Nat) : Int) := by
    rw [BitVec.toInt_eq_toNat_cond]
    split <;> omega
  rw [Int.shiftRight_eq_div_pow, BitVec.toNat_ofInt]
  split
  · rename_i hneg
    have hq : x.toInt / ((2 ^ n : Nat) : Int) = -1 := by
      rw [Int.ediv_eq_iff_of_pos (by omega)]
      omega
    rw [hq]
    have := Nat.two_pow_pos w
    rw [show (-1 : Int) % ((2 ^ w : Nat) : Int) = ((2 ^ w : Nat) : Int) - 1 by
      rw [Int.emod_def, show (-1 : Int) / ((2 ^ w : Nat) : Int) = -1 by
        rw [Int.ediv_eq_iff_of_pos (by omega)]; omega]
      omega]
    omega
  · rw [Int.ediv_eq_zero_of_lt (by omega) hhi]
    simp

theorem smtSDiv_toNat (x y : BitVec w) :
    (x.smtSDiv y).toNat =
      if y.toNat = 0 then (if x.toInt < 0 then 1 % 2 ^ w else 2 ^ w - 1)
      else (BitVec.ofInt w (x.toInt.tdiv y.toInt)).toNat := by
  by_cases hy : y.toNat = 0
  · have hy0 : y = 0#w := BitVec.eq_of_toNat_eq (by simpa using hy)
    rw [if_pos hy, hy0, smtSDiv_zero]
  · rw [if_neg hy, smtSDiv_eq_sdiv x (fun h ↦ hy (by simp [h])), sdiv_eq_ofInt]

theorem srem_toNat (x y : BitVec w) :
    (x.srem y).toNat = (BitVec.ofInt w (x.toInt.tmod y.toInt)).toNat := by
  rw [← BitVec.toInt_srem, BitVec.ofInt_toInt]

theorem BinOp.fold_toNat (op : BinOp) (x y : BitVec w) :
    op.fold x.toNat y.toNat w = (op.denote x y).toNat := by
  have hx := x.isLt
  have hy := y.isLt
  cases op with
  | add => simp [fold, denote, trunc_eq]
  | sub =>
    simp only [fold, denote, trunc_toNat, BitVec.toNat_sub]
    split
    · rename_i h
      rw [show 2 ^ w - y.toNat + x.toNat = x.toNat - y.toNat + 2 ^ w by omega, Nat.add_mod_right,
        Nat.mod_eq_of_lt (by omega)]
    · rename_i h
      rw [Nat.mod_eq_of_lt (by omega)]
      change x.toNat + 2 ^ w - y.toNat = _
      omega
  | mul => simp [fold, denote, trunc_eq]
  | udiv =>
    simp only [fold, denote, trunc_toNat, BitVec.smtUDiv_eq, ← BitVec.toNat_inj, BitVec.toNat_zero]
    split <;> simp
  | sdiv =>
    simp only [fold, denote, trunc_toNat, toSigned_toNat, ofSigned_eq_toNat, smtSDiv_toNat]
    split
    · split
      · rename_i h
        rw [BitVec.toInt_neg_iff] at h
        rw [Nat.mod_eq_of_lt]
        omega
      · rfl
    · rfl
  | urem =>
    simp only [fold, denote, trunc_toNat]
    split
    · rename_i h
      simp [h]
    · rfl
  | srem =>
    simp only [fold, denote, trunc_toNat, toSigned_toNat, ofSigned_eq_toNat, srem_toNat]
    split
    · rename_i h
      have h0 : y.toInt = 0 := (toInt_eq_zero_iff y).2 h
      rw [h0, Int.tmod_zero, BitVec.ofInt_toInt]
    · rfl
  | and => simp [fold, denote]
  | or => simp [fold, denote]
  | xor => simp [fold, denote]
  | shl =>
    simp only [fold, denote, trunc_toNat, BitVec.shiftLeft_eq', BitVec.toNat_shiftLeft]
    split
    · rename_i h
      rw [Nat.shiftLeft_eq, Nat.mod_eq_zero_of_dvd]
      exact Nat.dvd_mul_left_of_dvd (Nat.pow_dvd_pow 2 h) _
    · rw [trunc_eq]
  | lshr =>
    simp only [fold, denote, trunc_toNat, BitVec.ushiftRight_eq', BitVec.toNat_ushiftRight]
    split
    · rename_i h
      rw [Nat.shiftRight_eq_div_pow, Nat.div_eq_of_lt]
      exact Nat.lt_of_lt_of_le hx (Nat.pow_le_pow_right (by decide) h)
    · rfl
  | ashr =>
    simp only [fold, denote, trunc_toNat, toSigned_toNat, ofSigned_eq_toNat, BitVec.sshiftRight',
      BitVec.sshiftRight_eq]
    split
    · rename_i h
      exact (sshiftRight_of_le x h).symm
    · rfl

theorem BinOp.fold_eq_denote (op : BinOp) (x y w : Nat) :
    op.fold x y w = (op.denote (BitVec.ofNat w x) (BitVec.ofNat w y)).toNat := by
  rw [← op.fold_toNat]
  simp only [fold, ← trunc_eq_toNat, trunc_of_lt (trunc_lt _ _)]

theorem BinOp.fold_lt (op : BinOp) (x y w : Nat) : op.fold x y w < 2 ^ w := by
  rw [op.fold_eq_denote]
  exact (op.denote _ _).isLt

theorem BinOp.denote_comm {op : BinOp} (h : op.isCommutative = true) (x y : BitVec w) :
    op.denote x y = op.denote y x := by
  cases op with
  | add => exact BitVec.add_comm x y
  | mul => exact BitVec.mul_comm x y
  | and => exact BitVec.and_comm x y
  | or => exact BitVec.or_comm x y
  | xor => exact BitVec.xor_comm x y
  | sub | udiv | sdiv | urem | srem | shl | lshr | ashr => simp [isCommutative] at h

theorem CmpOp.fold_toNat (op : CmpOp) (x y : BitVec w) :
    op.fold x.toNat y.toNat w = op.denote x y := by
  cases op with
  | eq =>
    simp only [fold, denote, trunc_toNat]
    rw [Bool.eq_iff_iff, beq_iff_eq, beq_iff_eq, BitVec.toNat_inj]
  | ult => simp [fold, denote, BitVec.ult]
  | ule => simp [fold, denote, BitVec.ule]
  | slt => simp [fold, denote, BitVec.slt, toSigned_toNat]
  | sle => simp [fold, denote, BitVec.sle, toSigned_toNat]

end Symex
