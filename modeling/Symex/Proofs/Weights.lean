import Symex.Proofs.Constructors

namespace Symex

namespace Expr

@[simp] theorem weight_const (v w : Nat) : (Expr.const v w).weight = 1 := rfl
@[simp] theorem weight_word (v w : Nat) : (word v w).weight = 1 := rfl
@[simp] theorem weight_bool (b : Bool) : (bool b).weight = 1 := rfl
@[simp] theorem weight_read (u : Updates) (i : Expr) :
    (Expr.read u i).weight = u.weight + i.weight + 1 := rfl
@[simp] theorem weight_select (c t f : Expr) :
    (Expr.select c t f).weight = c.weight + t.weight + f.weight + 1 := rfl
@[simp] theorem weight_concat (m l : Expr) :
    (Expr.concat m l).weight = m.weight + l.weight + 1 := rfl
@[simp] theorem weight_extract (e : Expr) (o w : Nat) :
    (Expr.extract e o w).weight = 2 * e.weight := rfl
@[simp] theorem weight_zext (e : Expr) (w : Nat) : (Expr.zext e w).weight = e.weight + 1 := rfl
@[simp] theorem weight_sext (e : Expr) (w : Nat) : (Expr.sext e w).weight = e.weight + 1 := rfl
@[simp] theorem weight_not (e : Expr) : (Expr.not e).weight = e.weight + 1 := rfl
@[simp] theorem weight_binary (op : BinOp) (l r : Expr) :
    (Expr.binary op l r).weight = l.weight + r.weight + 1 := rfl
@[simp] theorem weight_compare (op : CmpOp) (l r : Expr) :
    (Expr.compare op l r).weight = l.weight + r.weight + 1 := rfl

theorem weight_pos : ∀ e : Expr, 0 < e.weight
  | .const _ _ | .read _ _ | .select _ _ _ | .concat _ _ | .zext _ _ | .sext _ _ | .not _
  | .binary _ _ _ | .compare _ _ _ => by simp
  | .extract e _ _ => by simpa using weight_pos e

end Expr

namespace Updates

@[simp] theorem weight_base (array : NamedArray) : (Updates.base array).weight = 1 := rfl
@[simp] theorem weight_write (i x : Expr) (u : Updates) :
    (Updates.write i x u).weight = i.weight + x.weight + u.weight + 1 := rfl

theorem weight_pos (u : Updates) : 0 < u.weight := by
  cases u <;> simp

theorem find_weight_le {u : Updates} {n : Nat} {e : Expr} (h : u.find n = .value e) :
    e.weight ≤ u.weight := by
  induction u with
  | base array => simp [find] at h
  | write i x older ih =>
    rw [find] at h
    rw [weight_write]
    split at h
    · split at h
      · obtain rfl : x = e := by simpa using h
        omega
      · have := ih h
        omega
    · simp at h

end Updates

namespace Expr

theorem readCore_weight_le (u : Updates) (i : Expr) :
    (readCore u i).weight ≤ (Expr.read u i).weight := by
  have hu := u.weight_pos
  unfold readCore
  simp only [weight_read]
  split
  · simp
  · split
    · have := Updates.find_weight_le ‹_›
      omega
    · simp
    · split
      · simp
      · simp only [weight_read, Updates.weight_base]
        omega

theorem orderCore_weight_le (op : CmpOp) (l r : Expr) :
    (orderCore op l r).weight ≤ (Expr.compare op l r).weight := by
  unfold orderCore
  split
  · simp
  · split
    · simp
    · split
      · simp
      · split
        · simp
        · simp

theorem eqOrdered_weight_le (l r : Expr) :
    (eqOrdered l r).weight ≤ (Expr.compare .eq l r).weight := by
  unfold eqOrdered
  split
  · rw [weight_compare]
    omega
  · split
    · split
      · split
        · simp only [weight_compare]
          omega
        · exact Nat.le_refl _
      · rename_i op x y _
        have := orderCore_weight_le op.converse y x
        simp only [weight_compare] at this ⊢
        omega
      · exact Nat.le_refl _
    · exact Nat.le_refl _

theorem eqCore_weight_le (l r : Expr) : (eqCore l r).weight ≤ (Expr.compare .eq l r).weight := by
  rw [eqCore_eq]
  split
  · simp
  · split
    · simp
    · split
      · have := eqOrdered_weight_le r l
        simp only [weight_compare] at this ⊢
        omega
      · exact eqOrdered_weight_le l r

theorem compareCore_weight_le (op : CmpOp) (l r : Expr) :
    (compareCore op l r).weight ≤ (Expr.compare op l r).weight := by
  cases op with
  | eq => exact eqCore_weight_le l r
  | ult | ule | slt | sle => exact orderCore_weight_le _ l r

theorem isZero_weight_le (e : Expr) : (isZero e).weight ≤ e.weight + 2 := by
  unfold isZero
  split
  · simp
  · rename_i l r
    split
    · simp only [weight_compare]
      omega
    · have := eqCore_weight_le (word 0 1) (.compare .eq l r)
      simp only [weight_compare, weight_word] at this ⊢
      omega
  · rename_i op l r _
    have := orderCore_weight_le op.converse r l
    simp only [weight_compare] at this ⊢
    omega
  · have := eqCore_weight_le (word 0 e.width) e
    simp only [weight_compare, weight_word] at this
    omega

theorem selectCore_weight_le (c t f : Expr) :
    (selectCore c t f).weight ≤ (Expr.select c t f).weight := by
  have ht := t.weight_pos
  have hf := f.weight_pos
  have hz := isZero_weight_le c
  unfold selectCore
  simp only [weight_select]
  split
  · split
    · omega
    · omega
  · split
    · omega
    · split
      · omega
      · split
        · omega
        · simp

theorem joinExtracts_weight_le {m l j : Expr} (h : joinExtracts m l = some j) :
    j.weight ≤ (Expr.concat m l).weight := by
  unfold joinExtracts at h
  split at h
  · split at h
    · simp only [Option.some.injEq] at h
      subst h
      simp only [weight_concat, weight_extract]
      split
      · omega
      · rw [weight_extract]
        omega
    · simp at h
  · simp at h

theorem concatCore_weight_le (m l : Expr) :
    (concatCore m l).weight ≤ (Expr.concat m l).weight := by
  fun_induction concatCore m l with
  | case1 m im il j hj ih =>
    have := joinExtracts_weight_le hj
    simp only [weight_concat] at *
    omega
  | case2 | case3 | case4 => simp
  | case5 m l =>
    cases hj : joinExtracts m l with
    | none => simp
    | some j => exact joinExtracts_weight_le hj

theorem extractCore_weight_le (e : Expr) (o w : Nat) :
    (extractCore e o w).weight ≤ (Expr.extract e o w).weight := by
  fun_induction extractCore e o w with
  | case1 e =>
    rw [weight_extract]
    omega
  | case2 | case9 | case10 => simp
  | case3 o w m l _ _ ih | case4 o w m l _ _ _ ih =>
    simp only [weight_extract, weight_concat] at ih ⊢
    omega
  | case5 o w m l _ _ low _ ihm ihl =>
    have := concatCore_weight_le (extractCore m 0 (w - low)) (extractCore l o low)
    simp only [weight_extract, weight_concat] at this ihm ihl ⊢
    omega
  | case6 o w x _ _ _ ih =>
    simp only [weight_extract] at ih ⊢
    omega
  | case7 o w x _ _ _ ih =>
    simp only [weight_extract, weight_zext] at ih ⊢
    omega
  | case8 o w x =>
    simp only [weight_word, weight_extract, weight_zext]
    omega

theorem binaryOrdered_cases (op : BinOp) (l r : Expr) :
    binaryOrdered op l r = l ∨ binaryOrdered op l r = r ∨
      binaryOrdered op l r = word 0 l.width ∨ binaryOrdered op l r = .binary op l r := by
  unfold binaryOrdered
  cases op <;> grind

theorem binaryCore_weight_le (op : BinOp) (l r : Expr) :
    (binaryCore op l r).weight ≤ (Expr.binary op l r).weight := by
  have ordered : ∀ x y, (binaryOrdered op x y).weight ≤ x.weight + y.weight + 1 := by
    intro x y
    obtain h | h | h | h := binaryOrdered_cases op x y
    · rw [h]
      omega
    · rw [h]
      omega
    · rw [h, weight_word]
      omega
    · rw [h]
      exact Nat.le_refl _
  rw [binaryCore_eq, weight_binary]
  split
  · simp
  · split
    · have := ordered r l
      omega
    · exact ordered l r

theorem mkNot_weight_le (e : Expr) : (mkNot e).weight ≤ (Expr.not e).weight := by
  unfold mkNot
  split
  · simp
  · simp only [weight_not]
    omega
  · exact Nat.le_refl _

theorem mkZext_weight_le {e r : Expr} {w : Nat} (h : (Expr.zext e w).WellFormed)
    (hr : mkZext e w = .ok r) : r.weight ≤ (Expr.zext e w).weight := by
  simp only [WellFormed] at h
  unfold mkZext at hr
  split at hr
  · obtain rfl : e = r := by simpa using hr
    simp
  · rw [if_neg (by omega), demand_of h.2.2] at hr
    simp only [Checked.ok_bind] at hr
    split at hr
    · obtain rfl : word _ w = r := by simpa using hr
      simp
    · obtain rfl : .zext e w = r := by simpa using hr
      exact Nat.le_refl _

theorem mkSext_weight_le {e r : Expr} {w : Nat} (h : (Expr.sext e w).WellFormed)
    (hr : mkSext e w = .ok r) : r.weight ≤ (Expr.sext e w).weight := by
  simp only [WellFormed] at h
  unfold mkSext at hr
  split at hr
  · obtain rfl : e = r := by simpa using hr
    simp
  · rw [if_neg (by omega), demand_of h.2.2] at hr
    simp only [Checked.ok_bind] at hr
    split at hr
    · obtain rfl : Expr.const _ w = r := by simpa using hr
      simp
    · obtain rfl : .sext e w = r := by simpa using hr
      exact Nat.le_refl _

end Expr

end Symex
