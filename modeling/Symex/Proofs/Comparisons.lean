import Symex.Proofs.Refinement

namespace Symex

open Bits

variable {a : Assignment}

namespace CmpOp

theorem fold_self (op : CmpOp) (x w : Nat) :
    op.fold x x w = (op == .eq || op == .ule || op == .sle) := by
  cases op <;> simp [fold]

theorem fold_eq_comm (x y w : Nat) : CmpOp.eq.fold x y w = CmpOp.eq.fold y x w := by
  simp only [fold]
  exact BEq.comm

theorem fold_converse {op : CmpOp} (h : op ≠ .eq) (x y w : Nat) :
    op.converse.fold y x w = !op.fold x y w := by
  cases op <;> simp_all [fold, converse, ← decide_not]

theorem fold_ult_zero (x w : Nat) : CmpOp.ult.fold x 0 w = false := by
  simp [fold, trunc_eq]

theorem fold_ule_zero (x w : Nat) : CmpOp.ule.fold 0 x w = true := by
  simp [fold, trunc_eq]

theorem converse_ne_eq {op : CmpOp} (h : op ≠ .eq) : op.converse ≠ .eq := by
  cases op <;> simp_all [converse]

theorem fold_eq_bit {x : Nat} (h : x < 2) :
    CmpOp.eq.fold 1 x 1 = decide (x = 1) ∧ CmpOp.eq.fold 0 x 1 = decide (x = 0) := by
  obtain rfl | rfl : x = 0 ∨ x = 1 := by omega
  · decide
  · decide

end CmpOp

namespace Expr

theorem compare_wellFormed_comm {op op' : CmpOp} {l r : Expr}
    (h : (Expr.compare op l r).WellFormed) : (Expr.compare op' r l).WellFormed := by
  simp only [WellFormed] at h ⊢
  exact ⟨h.2.1, h.1, h.2.2.symm⟩

theorem orderCore_refines {op : CmpOp} {l r : Expr} (hop : op ≠ .eq)
    (h : (Expr.compare op l r).WellFormed) :
    Refines a (.compare op l r) (orderCore op l r) := by
  rw [orderCore]
  split
  · rename_i x y hx hy
    rw [value?_eq_some] at hx hy
    refine ⟨bool_wellFormed _, rfl, fun {v} hv ↦ ?_⟩
    obtain ⟨x', y', hx', hy', rfl⟩ := Assignment.eval_compare.1 hv
    rw [hx, Assignment.eval_const, Option.some_inj] at hx'
    rw [hy, Assignment.eval_const, Option.some_inj] at hy'
    rw [Assignment.eval_bool, hx', hy']
  · split
    · rename_i hlr
      refine ⟨bool_wellFormed _, rfl, fun {v} hv ↦ ?_⟩
      obtain ⟨x, y, hx, hy, rfl⟩ := Assignment.eval_compare.1 hv
      obtain rfl : x = y := by rwa [← hlr, hx, Option.some_inj] at hy
      rw [Assignment.eval_bool, CmpOp.fold_self, beq_eq_false_iff_ne.2 hop, Bool.false_or]
    · split
      · rename_i hz
        simp only [Bool.and_eq_true, beq_iff_eq] at hz
        obtain ⟨rfl, hr⟩ := hz
        rw [value?_eq_some] at hr
        refine ⟨bool_wellFormed _, rfl, fun {v} hv ↦ ?_⟩
        obtain ⟨x, y, hx, hy, rfl⟩ := Assignment.eval_compare.1 hv
        rw [hr, Assignment.eval_const, Option.some_inj] at hy
        rw [← hy, CmpOp.fold_ult_zero, Assignment.eval_bool]
      · split
        · rename_i hz
          simp only [Bool.and_eq_true, beq_iff_eq] at hz
          obtain ⟨rfl, hl⟩ := hz
          rw [value?_eq_some] at hl
          refine ⟨bool_wellFormed _, rfl, fun {v} hv ↦ ?_⟩
          obtain ⟨x, y, hx, hy, rfl⟩ := Assignment.eval_compare.1 hv
          rw [hl, Assignment.eval_const, Option.some_inj] at hx
          rw [← hx, CmpOp.fold_ule_zero, Assignment.eval_bool]
        · exact .refl h

theorem negated_order_refines {op : CmpOp} {l r : Expr} (hop : op ≠ .eq)
    (h : (Expr.compare op l r).WellFormed) :
    Refines a (.compare .eq (.const 0 1) (.compare op l r)) (orderCore op.converse r l) := by
  refine Refines.trans ⟨compare_wellFormed_comm h, rfl, fun {v} hv ↦ ?_⟩
    (orderCore_refines (CmpOp.converse_ne_eq hop) (compare_wellFormed_comm h))
  obtain ⟨z, b, hz, hb, rfl⟩ := Assignment.eval_compare.1 hv
  obtain ⟨x, y, hx, hy, rfl⟩ := Assignment.eval_compare.1 hb
  obtain rfl : z = 0 := by simpa using hz.symm
  refine Assignment.eval_compare.2 ⟨y, x, hy, hx, ?_⟩
  simp only [WellFormed] at h
  rw [← h.2.2, CmpOp.fold_converse hop, width_const, (CmpOp.fold_eq_bit (Bool.toNat_lt _)).2]
  cases op.fold x y l.width <;> rfl

theorem eq_true_refines {e : Expr} (h : e.WellFormed) (hw : e.width = 1) :
    Refines a (.compare .eq (.const 1 1) e) e := by
  refine ⟨h, hw, fun {v} hv ↦ ?_⟩
  obtain ⟨o, x, ho, hx, rfl⟩ := Assignment.eval_compare.1 hv
  obtain rfl : o = 1 := by simpa using ho.symm
  have hlt := Assignment.eval_lt h hx
  rw [hw] at hlt
  rw [hx, width_const, (CmpOp.fold_eq_bit hlt).1]
  obtain rfl | rfl : x = 0 ∨ x = 1 := by omega
  · rfl
  · rfl

theorem double_negation_refines {e : Expr} (h : e.WellFormed) (hw : e.width = 1) :
    Refines a (.compare .eq (.const 0 1) (.compare .eq (.const 0 1) e)) e := by
  refine ⟨h, hw, fun {v} hv ↦ ?_⟩
  obtain ⟨z, b, hz, hb, rfl⟩ := Assignment.eval_compare.1 hv
  obtain ⟨z', x, hz', hx, rfl⟩ := Assignment.eval_compare.1 hb
  obtain rfl : z = 0 := by simpa using hz.symm
  obtain rfl : z' = 0 := by simpa using hz'.symm
  have hlt := Assignment.eval_lt h hx
  rw [hw] at hlt
  rw [hx, width_const, (CmpOp.fold_eq_bit (Bool.toNat_lt _)).2, (CmpOp.fold_eq_bit hlt).2]
  obtain rfl | rfl : x = 0 ∨ x = 1 := by omega
  · rfl
  · rfl

theorem eq_comm_refines {l r : Expr} (h : (Expr.compare .eq l r).WellFormed) :
    Refines a (.compare .eq l r) (.compare .eq r l) := by
  refine ⟨compare_wellFormed_comm h, rfl, fun {v} hv ↦ ?_⟩
  obtain ⟨x, y, hx, hy, rfl⟩ := Assignment.eval_compare.1 hv
  refine Assignment.eval_compare.2 ⟨y, x, hy, hx, ?_⟩
  simp only [WellFormed] at h
  rw [CmpOp.fold_eq_comm, h.2.2]

def eqOrdered (l r : Expr) : Expr :=
  if l.isTrue then r
  else if l.isFalse then
    match r with
    | .compare .eq x y => if x.isFalse then y else .compare .eq l r
    | .compare op x y => orderCore op.converse y x
    | _ => .compare .eq l r
  else .compare .eq l r

theorem eqCore_eq (l r : Expr) :
    eqCore l r =
      match l.value?, r.value? with
      | some x, some y => bool (CmpOp.eq.fold x y l.width)
      | _, _ => if l = r then bool true else if r.isConst then eqOrdered r l else eqOrdered l r := by
  unfold eqCore eqOrdered
  cases r.isConst with
  | false => rfl
  | true => rfl

theorem eqOrdered_refines {l r : Expr} (h : (Expr.compare .eq l r).WellFormed) :
    Refines a (.compare .eq l r) (eqOrdered l r) := by
  have hw := h
  simp only [WellFormed] at hw
  obtain ⟨-, hr, hlr⟩ := hw
  unfold eqOrdered
  split
  · rename_i hl
    rw [isTrue_iff] at hl
    subst hl
    exact eq_true_refines hr hlr.symm
  · split
    · rename_i hl
      rw [isFalse_iff] at hl
      subst hl
      split
      · rename_i x y
        split
        · rename_i hx
          rw [isFalse_iff] at hx
          subst hx
          simp only [WellFormed] at hr
          exact double_negation_refines hr.2.1 hr.2.2.symm
        · exact .refl h
      · rename_i op x y hop
        exact negated_order_refines hop hr
      · exact .refl h
    · exact .refl h

theorem eqCore_refines {l r : Expr} (h : (Expr.compare .eq l r).WellFormed) :
    Refines a (.compare .eq l r) (eqCore l r) := by
  rw [eqCore_eq]
  split
  · rename_i x y hx hy
    rw [value?_eq_some] at hx hy
    refine ⟨bool_wellFormed _, rfl, fun {v} hv ↦ ?_⟩
    obtain ⟨x', y', hx', hy', rfl⟩ := Assignment.eval_compare.1 hv
    rw [hx, Assignment.eval_const, Option.some_inj] at hx'
    rw [hy, Assignment.eval_const, Option.some_inj] at hy'
    rw [Assignment.eval_bool, hx', hy']
  · split
    · rename_i hlr
      refine ⟨bool_wellFormed _, rfl, fun {v} hv ↦ ?_⟩
      obtain ⟨x, y, hx, hy, rfl⟩ := Assignment.eval_compare.1 hv
      obtain rfl : x = y := by rwa [← hlr, hx, Option.some_inj] at hy
      rw [Assignment.eval_bool, CmpOp.fold_self]
      rfl
    · split
      · exact (eq_comm_refines h).trans (eqOrdered_refines (compare_wellFormed_comm h))
      · exact eqOrdered_refines h

theorem compareCore_refines {op : CmpOp} {l r : Expr} (h : (Expr.compare op l r).WellFormed) :
    Refines a (.compare op l r) (compareCore op l r) := by
  cases op with
  | eq => exact eqCore_refines h
  | ult | ule | slt | sle => exact orderCore_refines (by decide) h

theorem zero_eq_wellFormed {e : Expr} (h : e.WellFormed) :
    (Expr.compare .eq (.const 0 e.width) e).WellFormed := by
  simp only [WellFormed, maxWidth_eq, width_const, and_true]
  exact ⟨⟨h.width_range.1, h.width_range.2, Nat.two_pow_pos _⟩, h⟩

theorem word_zero (w : Nat) : word 0 w = .const 0 w := by
  simp [word, trunc_eq]

theorem isZero_refines {e : Expr} (h : e.WellFormed) :
    Refines a (.compare .eq (.const 0 e.width) e) (isZero e) := by
  have hz := zero_eq_wellFormed h
  unfold isZero
  split
  · rename_i v
    refine ⟨bool_wellFormed _, rfl, fun {v'} hv ↦ ?_⟩
    obtain ⟨x, y, hx, hy, rfl⟩ := Assignment.eval_compare.1 hv
    rw [Assignment.eval_const, Option.some_inj] at hx hy
    simp only [WellFormed] at h
    rw [← hx, ← hy, Assignment.eval_bool, width_const, width_const,
      (CmpOp.fold_eq_bit h.2.2).2]
    rfl
  · rename_i l r
    split
    · rename_i hl
      rw [isFalse_iff] at hl
      subst hl
      simp only [WellFormed] at h
      exact double_negation_refines h.2.1 h.2.2.symm
    · rw [word_zero]
      exact eqCore_refines hz
  · rename_i op l r hop
    exact negated_order_refines hop h
  · rw [word_zero]
    exact eqCore_refines hz

theorem selectCore_refines {c t f : Expr} (h : (Expr.select c t f).WellFormed) :
    Refines a (.select c t f) (selectCore c t f) := by
  have hw := h
  simp only [WellFormed] at hw
  obtain ⟨hc, ht, hf, hcw, htf⟩ := hw
  rw [selectCore]
  split
  · rename_i n hn
    rw [value?_eq_some] at hn
    have hval : ∀ {v : Nat}, a.eval (.select c t f) = some v →
        a.eval (if n = 0 then f else t) = some v := by
      intro v hv
      obtain ⟨m, hm, hr⟩ := Assignment.eval_select.1 hv
      rw [hn, Assignment.eval_const, Option.some_inj] at hm
      rwa [hm]
    split at hval
    · rename_i h0
      rw [if_pos h0]
      exact ⟨hf, htf.symm, hval⟩
    · rename_i h0
      rw [if_neg h0]
      exact ⟨ht, rfl, hval⟩
  · split
    · rename_i htf'
      refine ⟨ht, rfl, fun {v} hv ↦ ?_⟩
      obtain ⟨m, -, hr⟩ := Assignment.eval_select.1 hv
      rwa [← htf', ite_self] at hr
    · have hbit : ∀ {m : Nat}, a.eval c = some m → m = 0 ∨ m = 1 := by
        intro m hm
        have := Assignment.eval_lt hc hm
        rw [hcw] at this
        omega
      split
      · rename_i htrue
        rw [Bool.and_eq_true, isTrue_iff, isFalse_iff] at htrue
        obtain ⟨rfl, rfl⟩ := htrue
        refine ⟨hc, hcw, fun {v} hv ↦ ?_⟩
        obtain ⟨m, hm, hr⟩ := Assignment.eval_select.1 hv
        obtain rfl | rfl := hbit hm
        · rwa [if_pos rfl, Assignment.eval_const, ← hm] at hr
        · rwa [if_neg Nat.one_ne_zero, Assignment.eval_const, ← hm] at hr
      · split
        · rename_i hfalse
          rw [Bool.and_eq_true, isTrue_iff, isFalse_iff] at hfalse
          obtain ⟨rfl, rfl⟩ := hfalse
          have hz := isZero_refines (a := a) hc
          refine ⟨hz.wellFormed, hz.width_eq, fun {v} hv ↦ hz.eval_eq ?_⟩
          obtain ⟨m, hm, hr⟩ := Assignment.eval_select.1 hv
          refine Assignment.eval_compare.2 ⟨0, m, Assignment.eval_const _ _ _, hm, ?_⟩
          rw [width_const, hcw]
          obtain rfl | rfl := hbit hm
          · simpa [CmpOp.fold] using hr
          · simpa [CmpOp.fold, trunc_eq] using hr
        · exact .refl h

end Expr

end Symex
