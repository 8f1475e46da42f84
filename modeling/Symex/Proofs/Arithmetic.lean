import Symex.Proofs.Refinement

namespace Symex

open Bits

variable {a : Assignment}

namespace Expr

theorem mkNot_refines {e : Expr} (h : e.WellFormed) : Refines a (.not e) (mkNot e) := by
  unfold mkNot
  split
  · rename_i v w
    have hpos := Nat.two_pow_pos w
    have hmod := Nat.mod_lt v hpos
    refine ⟨?_, rfl, fun {v'} hv ↦ ?_⟩
    · simp only [WellFormed] at h ⊢
      refine ⟨h.1, h.2.1, ?_⟩
      change 2 ^ w - 1 - _ < 2 ^ w
      omega
    · obtain ⟨n, hn, rfl⟩ := Assignment.eval_not.1 hv
      rw [Assignment.eval_const, Option.some_inj] at hn
      rw [Assignment.eval_const, trunc_eq, hn]
      rfl
  · rename_i inner
    simp only [WellFormed] at h
    refine ⟨h, rfl, fun {v} hv ↦ ?_⟩
    obtain ⟨n, hn, rfl⟩ := Assignment.eval_not.1 hv
    obtain ⟨x, hx, rfl⟩ := Assignment.eval_not.1 hn
    have hlt := Assignment.eval_lt h hx
    rw [hx, Option.some_inj, width_not, Nat.mod_eq_of_lt hlt, Nat.mod_eq_of_lt (by omega)]
    omega
  · exact .refl h

theorem binary_refines_of {op : BinOp} {l r e : Expr} (h : (Expr.binary op l r).WellFormed)
    (he : e.WellFormed) (hw : e.width = l.width)
    (hv : ∀ x y : BitVec l.width, a.eval l = some x.toNat → a.eval r = some y.toNat →
      a.eval e = some (op.denote x y).toNat) : Refines a (.binary op l r) e := by
  refine ⟨he, hw, fun {v} hev ↦ ?_⟩
  obtain ⟨x, y, hx, hy, rfl⟩ := Assignment.eval_binary.1 hev
  simp only [WellFormed] at h
  have hxlt := Assignment.eval_lt h.1 hx
  have hylt := Assignment.eval_lt h.2.1 hy
  rw [← h.2.2] at hylt
  rw [op.fold_eq_denote]
  apply hv
  · rw [BitVec.toNat_ofNat, Nat.mod_eq_of_lt hxlt, hx]
  · rw [BitVec.toNat_ofNat, Nat.mod_eq_of_lt hylt, hy]

end Expr

theorem Assignment.ofNat_of_eval_const {e : Expr} {n w : Nat} {x : BitVec w}
    (he : e.value? = some n) (hx : a.eval e = some x.toNat) : x = BitVec.ofNat w n := by
  rw [Expr.value?_eq_some] at he
  rw [he, eval_const, Option.some_inj] at hx
  rw [hx, BitVec.ofNat_toNat, BitVec.setWidth_eq]

namespace Expr

theorem binary_comm_refines {op : BinOp} {l r : Expr} (hop : op.isCommutative = true)
    (h : (Expr.binary op l r).WellFormed) : Refines a (.binary op l r) (.binary op r l) := by
  have hw := h
  simp only [WellFormed] at hw
  refine binary_refines_of h ?_ hw.2.2.symm fun x y hx hy ↦ ?_
  · simp only [WellFormed]
    exact ⟨hw.2.1, hw.1, hw.2.2.symm⟩
  · refine Assignment.eval_binary.2 ⟨_, _, hy, hx, ?_⟩
    rw [← hw.2.2, op.fold_toNat, op.denote_comm hop]

/-- The simplifications of an operation once a constant is on the left of a commutative one. -/
def binaryOrdered (op : BinOp) (lhs rhs : Expr) : Expr :=
  match op with
  | .add =>
    if lhs.value? = some 0 then rhs else .binary .add lhs rhs
  | .sub =>
    if rhs.value? = some 0 then lhs else if lhs = rhs then word 0 lhs.width else .binary .sub lhs rhs
  | .mul =>
    if lhs.value? = some 0 then lhs else if lhs.value? = some 1 then rhs else .binary .mul lhs rhs
  | .udiv | .sdiv =>
    if rhs.value? = some 1 then lhs else .binary op lhs rhs
  | .urem | .srem =>
    if rhs.value? = some 1 then word 0 lhs.width else .binary op lhs rhs
  | .and =>
    if lhs = rhs then lhs
    else if lhs.value? = some 0 then lhs
    else if lhs.value? = some (pow2 lhs.width - 1) then rhs
    else .binary .and lhs rhs
  | .or =>
    if lhs.value? = some 0 then rhs
    else if lhs = rhs then lhs
    else if lhs.value? = some (pow2 lhs.width - 1) then lhs
    else .binary .or lhs rhs
  | .xor =>
    if lhs.value? = some 0 then rhs else if lhs = rhs then word 0 lhs.width else .binary .xor lhs rhs
  | .shl | .lshr | .ashr =>
    if rhs.value? = some 0 then lhs else if lhs.value? = some 0 then lhs else .binary op lhs rhs

theorem binaryCore_eq (op : BinOp) (l r : Expr) :
    binaryCore op l r =
      match l.value?, r.value? with
      | some x, some y => word (op.fold x y l.width) l.width
      | _, _ =>
        if op.isCommutative && r.isConst then binaryOrdered op r l else binaryOrdered op l r := by
  unfold binaryCore binaryOrdered
  cases hs : op.isCommutative && r.isConst with
  | false => cases op <;> rfl
  | true =>
    cases op with
    | add | mul | and | or | xor => rfl
    | sub | udiv | sdiv | urem | srem | shl | lshr | ashr => simp [BinOp.isCommutative] at hs

theorem binary_refines_left {op : BinOp} {l r : Expr} (h : (Expr.binary op l r).WellFormed)
    (hv : ∀ x y : BitVec l.width, a.eval l = some x.toNat → a.eval r = some y.toNat →
      op.denote x y = x) : Refines a (.binary op l r) l := by
  have hw := h
  simp only [WellFormed] at hw
  refine binary_refines_of h hw.1 rfl fun x y hx hy ↦ ?_
  rw [hv x y hx hy, hx]

theorem binary_refines_right {op : BinOp} {l r : Expr} (h : (Expr.binary op l r).WellFormed)
    (hv : ∀ x y : BitVec l.width, a.eval l = some x.toNat → a.eval r = some y.toNat →
      op.denote x y = y) : Refines a (.binary op l r) r := by
  have hw := h
  simp only [WellFormed] at hw
  refine binary_refines_of h hw.2.1 hw.2.2.symm fun x y hx hy ↦ ?_
  rw [hv x y hx hy, hy]

theorem binary_refines_zero {op : BinOp} {l r : Expr} (h : (Expr.binary op l r).WellFormed)
    (hv : ∀ x y : BitVec l.width, a.eval l = some x.toNat → a.eval r = some y.toNat →
      op.denote x y = 0#l.width) : Refines a (.binary op l r) (word 0 l.width) := by
  have hw := h
  simp only [WellFormed] at hw
  have hr := hw.1.width_range
  refine binary_refines_of h (word_wellFormed _ hr.1 hr.2) rfl fun x y hx hy ↦ ?_
  rw [hv x y hx hy, Assignment.eval_word, Nat.zero_mod]
  rfl

end Expr

theorem Assignment.eq_of_eval_self {e : Expr} {w : Nat} {x y : BitVec w}
    (hx : a.eval e = some x.toNat) (hy : a.eval e = some y.toNat) : x = y := by
  rw [hx, Option.some_inj] at hy
  exact BitVec.eq_of_toNat_eq hy

namespace Expr

open Assignment (ofNat_of_eval_const eq_of_eval_self)

theorem ofNat_allOnes (w : Nat) : BitVec.ofNat w (pow2 w - 1) = BitVec.allOnes w := by
  apply BitVec.eq_of_toNat_eq
  rw [BitVec.toNat_ofNat, BitVec.toNat_allOnes]
  exact Nat.mod_eq_of_lt (by have := Nat.two_pow_pos w; change 2 ^ w - 1 < 2 ^ w; omega)

theorem binaryOrdered_refines {op : BinOp} {l r : Expr} (h : (Expr.binary op l r).WellFormed) :
    Refines a (.binary op l r) (binaryOrdered op l r) := by
  have hw := h
  simp only [WellFormed] at hw
  have hrange := hw.1.width_range
  cases op with
  | add =>
    simp only [binaryOrdered]
    split
    · rename_i hl
      exact binary_refines_right h fun x y hx hy ↦ by simp [BinOp.denote, ofNat_of_eval_const hl hx]
    · exact .refl h
  | sub =>
    simp only [binaryOrdered]
    split
    · rename_i hr
      exact binary_refines_left h fun x y hx hy ↦ by simp [BinOp.denote, ofNat_of_eval_const hr hy]
    · split
      · rename_i hlr
        subst hlr
        exact binary_refines_zero h fun x y hx hy ↦ by simp [BinOp.denote, eq_of_eval_self hx hy]
      · exact .refl h
  | mul =>
    simp only [binaryOrdered]
    split
    · rename_i hl
      exact binary_refines_left h fun x y hx hy ↦ by simp [BinOp.denote, ofNat_of_eval_const hl hx]
    · split
      · rename_i hl
        exact binary_refines_right h fun x y hx hy ↦ by
          simp [BinOp.denote, ofNat_of_eval_const hl hx]
      · exact .refl h
  | udiv =>
    simp only [binaryOrdered]
    split
    · rename_i hr
      refine binary_refines_left h fun x y hx hy ↦ ?_
      have hne : 1#l.width ≠ 0#l.width := by simpa using Nat.ne_of_gt hrange.1
      simp [BinOp.denote, ofNat_of_eval_const hr hy, BitVec.smtUDiv_eq, hne]
    · exact .refl h
  | sdiv =>
    simp only [binaryOrdered]
    split
    · rename_i hr
      refine binary_refines_left h fun x y hx hy ↦ ?_
      have hne : 1#l.width ≠ 0#l.width := by simpa using Nat.ne_of_gt hrange.1
      simp [BinOp.denote, ofNat_of_eval_const hr hy, smtSDiv_eq_sdiv x hne]
    · exact .refl h
  | urem =>
    simp only [binaryOrdered]
    split
    · rename_i hr
      exact binary_refines_zero h fun x y hx hy ↦ by
        simp [BinOp.denote, ofNat_of_eval_const hr hy]
    · exact .refl h
  | srem =>
    simp only [binaryOrdered]
    split
    · rename_i hr
      exact binary_refines_zero h fun x y hx hy ↦ by
        simp [BinOp.denote, ofNat_of_eval_const hr hy]
    · exact .refl h
  | and =>
    simp only [binaryOrdered]
    split
    · rename_i hlr
      subst hlr
      exact binary_refines_left h fun x y hx hy ↦ by simp [BinOp.denote, eq_of_eval_self hx hy]
    · split
      · rename_i hl
        exact binary_refines_left h fun x y hx hy ↦ by
          simp [BinOp.denote, ofNat_of_eval_const hl hx]
      · split
        · rename_i hl
          exact binary_refines_right h fun x y hx hy ↦ by
            rw [ofNat_of_eval_const hl hx, ofNat_allOnes, BinOp.denote, BitVec.allOnes_and]
        · exact .refl h
  | or =>
    simp only [binaryOrdered]
    split
    · rename_i hl
      exact binary_refines_right h fun x y hx hy ↦ by simp [BinOp.denote, ofNat_of_eval_const hl hx]
    · split
      · rename_i hlr
        subst hlr
        exact binary_refines_left h fun x y hx hy ↦ by simp [BinOp.denote, eq_of_eval_self hx hy]
      · split
        · rename_i hl
          exact binary_refines_left h fun x y hx hy ↦ by
            rw [ofNat_of_eval_const hl hx, ofNat_allOnes, BinOp.denote, BitVec.allOnes_or]
        · exact .refl h
  | xor =>
    simp only [binaryOrdered]
    split
    · rename_i hl
      exact binary_refines_right h fun x y hx hy ↦ by simp [BinOp.denote, ofNat_of_eval_const hl hx]
    · split
      · rename_i hlr
        subst hlr
        exact binary_refines_zero h fun x y hx hy ↦ by simp [BinOp.denote, eq_of_eval_self hx hy]
      · exact .refl h
  | shl | lshr | ashr =>
    simp only [binaryOrdered]
    split
    · rename_i hr
      exact binary_refines_left h fun x y hx hy ↦ by simp [BinOp.denote, ofNat_of_eval_const hr hy]
    · split
      · rename_i hl
        exact binary_refines_left h fun x y hx hy ↦ by
          simp [BinOp.denote, ofNat_of_eval_const hl hx]
      · exact .refl h

theorem binaryCore_refines {op : BinOp} {l r : Expr} (h : (Expr.binary op l r).WellFormed) :
    Refines a (.binary op l r) (binaryCore op l r) := by
  have hw := h
  simp only [WellFormed] at hw
  have hrange := hw.1.width_range
  rw [binaryCore_eq]
  split
  · rename_i m n hm hn
    refine binary_refines_of h (word_wellFormed _ hrange.1 hrange.2) rfl fun x y hx hy ↦ ?_
    rw [Assignment.eval_word, Nat.mod_eq_of_lt (op.fold_lt _ _ _), op.fold_eq_denote,
      ofNat_of_eval_const hm hx, ofNat_of_eval_const hn hy]
  · split
    · rename_i hc
      rw [Bool.and_eq_true] at hc
      have hcomm := binary_comm_refines (a := a) hc.1 h
      exact hcomm.trans (binaryOrdered_refines hcomm.wellFormed)
    · exact binaryOrdered_refines h

end Expr

end Symex
