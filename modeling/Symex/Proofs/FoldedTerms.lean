import Symex.Proofs.Arrays
import Symex.Proofs.Denotation

namespace Symex

mutual

/-- No part of the term is an operation that the constructors would have folded: a selection on a
constant, or another operation with constants for all its operands. -/
def Expr.Folded : Expr → Prop
  | .const _ _ => True
  | .read u i => u.Folded ∧ i.Folded
  | .select c t f => c.isConst = false ∧ c.Folded ∧ t.Folded ∧ f.Folded
  | .extract x _ _ | .zext x _ | .sext x _ | .not x => x.isConst = false ∧ x.Folded
  | .concat l r | .binary _ l r | .compare _ l r =>
    (l.isConst && r.isConst) = false ∧ l.Folded ∧ r.Folded

def Updates.Folded : Updates → Prop
  | .base _ => True
  | .write i x older => i.Folded ∧ x.Folded ∧ older.Folded

end

@[simp] theorem Updates.folded_base (array : NamedArray) : (Updates.base array).Folded := trivial

@[simp] theorem Updates.folded_write {i x : Expr} {older : Updates} :
    (Updates.write i x older).Folded ↔ i.Folded ∧ x.Folded ∧ older.Folded := Iff.rfl

theorem Updates.find_folded {u : Updates} {n : Nat} {e : Expr} (h : u.Folded)
    (hf : u.find n = .value e) : e.Folded := by
  induction u with
  | base array => simp [find] at hf
  | write i x older ih =>
    rw [folded_write] at h
    rw [find] at hf
    split at hf
    · split at hf
      · obtain rfl : x = e := by simpa using hf
        exact h.2.1
      · exact ih h.2.2 hf
    · simp at hf

namespace Expr

@[simp] theorem folded_const (v w : Nat) : (Expr.const v w).Folded := trivial

@[simp] theorem folded_word (v w : Nat) : (word v w).Folded := folded_const ..
@[simp] theorem folded_bool (b : Bool) : (bool b).Folded := folded_const ..

@[simp] theorem folded_read {u : Updates} {i : Expr} : (read u i).Folded ↔ u.Folded ∧ i.Folded := Iff.rfl

@[simp] theorem folded_select {c t f : Expr} :
    (select c t f).Folded ↔ c.isConst = false ∧ c.Folded ∧ t.Folded ∧ f.Folded := Iff.rfl

@[simp] theorem folded_extract {x : Expr} {o w : Nat} :
    (extract x o w).Folded ↔ x.isConst = false ∧ x.Folded := Iff.rfl

@[simp] theorem folded_zext {x : Expr} {w : Nat} : (zext x w).Folded ↔ x.isConst = false ∧ x.Folded := Iff.rfl

@[simp] theorem folded_sext {x : Expr} {w : Nat} : (sext x w).Folded ↔ x.isConst = false ∧ x.Folded := Iff.rfl

@[simp] theorem folded_not {x : Expr} : (not x).Folded ↔ x.isConst = false ∧ x.Folded := Iff.rfl

@[simp] theorem folded_concat {l r : Expr} :
    (concat l r).Folded ↔ (l.isConst && r.isConst) = false ∧ l.Folded ∧ r.Folded := Iff.rfl

@[simp] theorem folded_binary {op : BinOp} {l r : Expr} :
    (binary op l r).Folded ↔ (l.isConst && r.isConst) = false ∧ l.Folded ∧ r.Folded := Iff.rfl

@[simp] theorem folded_compare {op : CmpOp} {l r : Expr} :
    (compare op l r).Folded ↔ (l.isConst && r.isConst) = false ∧ l.Folded ∧ r.Folded := Iff.rfl

theorem isConst_eq_false_iff {e : Expr} : e.isConst = false ↔ e.value? = none := by
  cases e <;> simp [isConst, value?]

theorem isConst_eq_false_of_ne {e : Expr} (h : ∀ v w, e = .const v w → False) :
    e.isConst = false := by
  cases e with
  | const v w => exact (h v w rfl).elim
  | _ => rfl

theorem not_both_const {l r : Expr} (h : ∀ x y, l.value? = some x → r.value? = some y → False) :
    (l.isConst && r.isConst) = false := by
  cases hl : l.value? with
  | none => rw [isConst_eq_false_iff.2 hl, Bool.false_and]
  | some x =>
    cases hr : r.value? with
    | none => rw [isConst_eq_false_iff.2 hr, Bool.and_false]
    | some y => exact (h x y hl hr).elim

theorem readCore_folded {u : Updates} {i : Expr} (hu : u.Folded) (hi : i.Folded) :
    (readCore u i).Folded := by
  have h : (Expr.read u i).Folded := folded_read.2 ⟨hu, hi⟩
  unfold readCore
  split
  · exact h
  · split
    · exact Updates.find_folded hu ‹_›
    · exact h
    · split
      · simp
      · exact folded_read.2 ⟨Updates.folded_base _, hi⟩

theorem orderCore_folded {op : CmpOp} {l r : Expr} (hl : l.Folded) (hr : r.Folded) :
    (orderCore op l r).Folded := by
  unfold orderCore
  split
  · simp
  · rename_i hconst
    split
    · simp
    · split
      · simp
      · split
        · simp
        · exact folded_compare.2 ⟨not_both_const hconst, hl, hr⟩

theorem eqOrdered_folded {l r : Expr} (hconst : (l.isConst && r.isConst) = false) (hl : l.Folded)
    (hr : r.Folded) : (eqOrdered l r).Folded := by
  have h : (Expr.compare .eq l r).Folded := folded_compare.2 ⟨hconst, hl, hr⟩
  unfold eqOrdered
  split
  · exact hr
  · split
    · split
      · split
        · exact (folded_compare.1 hr).2.2
        · exact h
      · rw [folded_compare] at hr
        exact orderCore_folded hr.2.2 hr.2.1
      · exact h
    · exact h

theorem eqCore_folded {l r : Expr} (hl : l.Folded) (hr : r.Folded) : (eqCore l r).Folded := by
  rw [eqCore_eq]
  split
  · simp
  · rename_i hconst
    have hconst := not_both_const hconst
    split
    · simp
    · split
      · rw [Bool.and_comm] at hconst
        exact eqOrdered_folded hconst hr hl
      · exact eqOrdered_folded hconst hl hr

theorem compareCore_folded {op : CmpOp} {l r : Expr} (hl : l.Folded) (hr : r.Folded) :
    (compareCore op l r).Folded := by
  cases op with
  | eq => exact eqCore_folded hl hr
  | ult | ule | slt | sle => exact orderCore_folded hl hr

theorem isZero_folded {e : Expr} (h : e.Folded) : (isZero e).Folded := by
  unfold isZero
  split
  · simp
  · split
    · exact (folded_compare.1 h).2.2
    · exact eqCore_folded (by simp) h
  · rw [folded_compare] at h
    exact orderCore_folded h.2.2 h.2.1
  · exact eqCore_folded (by simp) h

theorem selectCore_folded {c t f : Expr} (hc : c.Folded) (ht : t.Folded) (hf : f.Folded) :
    (selectCore c t f).Folded := by
  unfold selectCore
  split
  · split
    · exact hf
    · exact ht
  · rename_i hnone
    split
    · exact ht
    · split
      · exact hc
      · split
        · exact isZero_folded hc
        · exact folded_select.2 ⟨isConst_eq_false_iff.2 hnone, hc, ht, hf⟩

theorem joinExtracts_folded {m l j : Expr} (hl : l.Folded) (h : joinExtracts m l = some j) :
    j.Folded := by
  unfold joinExtracts at h
  split at h
  · split at h
    · simp only [Option.some.injEq] at h
      subst h
      rw [folded_extract] at hl
      split
      · exact hl.2
      · exact folded_extract.2 hl
    · simp at h
  · simp at h

theorem concatCore_folded {m l : Expr} (hm : m.Folded) (hl : l.Folded) :
    (concatCore m l).Folded := by
  fun_induction concatCore m l with
  | case1 m im il j hj ih =>
    rw [folded_concat] at hl
    exact ih (joinExtracts_folded hl.2.1 hj) hl.2.2
  | case2 m im il =>
    exact folded_concat.2 ⟨by simp [isConst], hm, hl⟩
  | case3 => simp
  | case4 m l w hnone =>
    rw [folded_concat, isConst_eq_false_iff.2 hnone]
    exact ⟨rfl, hm, hl⟩
  | case5 m l _ hconst =>
    cases hj : joinExtracts m l with
    | none =>
      rw [Option.getD_none, folded_concat, isConst_eq_false_of_ne hconst, Bool.and_false]
      exact ⟨rfl, hm, hl⟩
    | some j => exact joinExtracts_folded hl hj

theorem extractCore_folded {e : Expr} {o w : Nat} (h : e.Folded) : (extractCore e o w).Folded := by
  fun_induction extractCore e o w with
  | case1 e => exact h
  | case2 => simp
  | case3 o w m l _ _ ih =>
    exact ih (folded_concat.1 h).2.1
  | case4 o w m l _ _ _ ih =>
    exact ih (folded_concat.1 h).2.2
  | case5 o w m l _ _ low _ ihm ihl =>
    rw [folded_concat] at h
    exact concatCore_folded (ihm h.2.1) (ihl h.2.2)
  | case6 o w x _ _ _ ih => exact ih (folded_extract.1 h).2
  | case7 o w x _ _ _ ih => exact ih (folded_zext.1 h).2
  | case8 => simp
  | case9 => exact folded_extract.2 ⟨rfl, h⟩
  | case10 e o w _ hconst => exact folded_extract.2 ⟨isConst_eq_false_of_ne hconst, h⟩

theorem binaryOrdered_folded {op : BinOp} {l r : Expr} (hconst : (l.isConst && r.isConst) = false)
    (hl : l.Folded) (hr : r.Folded) : (binaryOrdered op l r).Folded := by
  obtain h | h | h | h := binaryOrdered_cases op l r
  · rwa [h]
  · rwa [h]
  · simp [h]
  · rw [h]
    exact folded_binary.2 ⟨hconst, hl, hr⟩

theorem binaryCore_folded {op : BinOp} {l r : Expr} (hl : l.Folded) (hr : r.Folded) :
    (binaryCore op l r).Folded := by
  rw [binaryCore_eq]
  split
  · simp
  · rename_i hconst
    have hconst := not_both_const hconst
    split
    · rw [Bool.and_comm] at hconst
      exact binaryOrdered_folded hconst hr hl
    · exact binaryOrdered_folded hconst hl hr

theorem mkNot_folded {e : Expr} (h : e.Folded) : (mkNot e).Folded := by
  unfold mkNot
  split
  · simp
  · exact (folded_not.1 h).2
  · rename_i hconst _
    exact folded_not.2 ⟨isConst_eq_false_of_ne hconst, h⟩

theorem mkRead_folded {u : Updates} {i r : Expr} (hu : u.Folded) (hi : i.Folded)
    (hr : mkRead u i = .ok r) : r.Folded := by
  obtain ⟨-, rfl⟩ := mkRead_eq_ok.1 hr
  exact readCore_folded hu hi

theorem mkSelect_folded {c t f r : Expr} (hc : c.Folded) (ht : t.Folded) (hf : f.Folded)
    (hr : mkSelect c t f = .ok r) : r.Folded := by
  obtain ⟨-, rfl⟩ := mkSelect_eq_ok.1 hr
  exact selectCore_folded hc ht hf

theorem mkConcat_folded {m l r : Expr} (hm : m.Folded) (hl : l.Folded)
    (hr : mkConcat m l = .ok r) : r.Folded := by
  obtain ⟨-, rfl⟩ := mkConcat_eq_ok.1 hr
  exact concatCore_folded hm hl

theorem mkExtract_folded {e r : Expr} {o w : Nat} (h : e.Folded) (hr : mkExtract e o w = .ok r) :
    r.Folded := by
  obtain ⟨-, rfl⟩ := mkExtract_eq_ok.1 hr
  exact extractCore_folded h

theorem mkZext_folded {e r : Expr} {w : Nat} (h : e.Folded) (hr : mkZext e w = .ok r) :
    r.Folded := by
  unfold mkZext at hr
  split at hr
  · obtain rfl : e = r := by simpa using hr
    exact h
  · split at hr
    · exact mkExtract_folded h hr
    · simp only [Checked.bind_eq_ok] at hr
      obtain ⟨-, -, hr⟩ := hr
      split at hr
      · obtain rfl : word _ w = r := by simpa using hr
        simp
      · rename_i hconst
        obtain rfl : .zext e w = r := by simpa using hr
        exact folded_zext.2 ⟨isConst_eq_false_of_ne hconst, h⟩

theorem mkSext_folded {e r : Expr} {w : Nat} (h : e.Folded) (hr : mkSext e w = .ok r) :
    r.Folded := by
  unfold mkSext at hr
  split at hr
  · obtain rfl : e = r := by simpa using hr
    exact h
  · split at hr
    · exact mkExtract_folded h hr
    · simp only [Checked.bind_eq_ok] at hr
      obtain ⟨-, -, hr⟩ := hr
      split at hr
      · obtain rfl : Expr.const _ w = r := by simpa using hr
        simp
      · rename_i hconst
        obtain rfl : .sext e w = r := by simpa using hr
        exact folded_sext.2 ⟨isConst_eq_false_of_ne hconst, h⟩

theorem mkBinary_folded {op : BinOp} {l r e : Expr} (hl : l.Folded) (hr : r.Folded)
    (h : mkBinary op l r = .ok e) : e.Folded := by
  obtain ⟨-, rfl⟩ := mkBinary_eq_ok.1 h
  exact binaryCore_folded hl hr

theorem mkCompare_folded {op : CmpOp} {l r e : Expr} (hl : l.Folded) (hr : r.Folded)
    (h : mkCompare op l r = .ok e) : e.Folded := by
  obtain ⟨-, rfl⟩ := mkCompare_eq_ok.1 h
  exact compareCore_folded hl hr

theorem mkNe_folded {l r e : Expr} (hl : l.Folded) (hr : r.Folded) (h : mkNe l r = .ok e) :
    e.Folded := by
  simp only [mkNe, Checked.bind_eq_ok, Checked.pure_eq_ok] at h
  obtain ⟨c, hc, rfl⟩ := h
  exact isZero_folded (mkCompare_folded hl hr hc)

theorem foldlM_mkBinary_folded {op : BinOp} {es : List Expr} {acc r : Expr} (hacc : acc.Folded)
    (hes : ∀ e ∈ es, e.Folded) (h : es.foldlM (mkBinary op) acc = .ok r) : r.Folded := by
  induction es generalizing acc with
  | nil =>
    obtain rfl : acc = r := by simpa using h
    exact hacc
  | cons e es ih =>
    rw [List.foldlM_cons, Checked.bind_eq_ok] at h
    obtain ⟨acc', hacc', h⟩ := h
    rw [List.forall_mem_cons] at hes
    exact ih (mkBinary_folded hacc hes.1 hacc') hes.2 h

end Expr

namespace RawTerm

open Symex.Expr in
mutual

theorem build_folded {t : RawTerm} {e : Expr} (h : t.build = .ok e) : e.Folded := by
  match t with
  | constant v w =>
    obtain ⟨-, rfl⟩ := constant_eq_ok.1 h
    simp
  | bool b =>
    obtain rfl : .bool b = e := by simpa [build] using h
    simp
  | pointer v =>
    obtain rfl : .pointer v = e := by simpa [build] using h
    exact folded_word v 64
  | read us i =>
    simp only [build, Checked.bind_eq_ok] at h
    obtain ⟨u, hu, i', hi, h⟩ := h
    exact mkRead_folded (buildWrites_folded hu) (build_folded hi) h
  | select c t f =>
    simp only [build, Checked.bind_eq_ok] at h
    obtain ⟨c', hc, t', ht, f', hf, h⟩ := h
    exact mkSelect_folded (build_folded hc) (build_folded ht) (build_folded hf) h
  | concat m l =>
    simp only [build, Checked.bind_eq_ok] at h
    obtain ⟨m', hm, l', hl, h⟩ := h
    exact mkConcat_folded (build_folded hm) (build_folded hl) h
  | extract t offset w =>
    simp only [build, Checked.bind_eq_ok] at h
    obtain ⟨t', ht, h⟩ := h
    exact mkExtract_folded (build_folded ht) h
  | truncate t w =>
    simp only [build, Checked.bind_eq_ok] at h
    obtain ⟨t', ht, h⟩ := h
    exact mkExtract_folded (build_folded ht) h
  | zext t w =>
    simp only [build, Checked.bind_eq_ok] at h
    obtain ⟨t', ht, h⟩ := h
    exact mkZext_folded (build_folded ht) h
  | sext t w =>
    simp only [build, Checked.bind_eq_ok] at h
    obtain ⟨t', ht, h⟩ := h
    exact mkSext_folded (build_folded ht) h
  | not t =>
    simp only [build, Checked.bind_eq_ok, Checked.pure_eq_ok] at h
    obtain ⟨t', ht, rfl⟩ := h
    exact mkNot_folded (build_folded ht)
  | isZero t =>
    simp only [build, Checked.bind_eq_ok, Checked.pure_eq_ok] at h
    obtain ⟨t', ht, rfl⟩ := h
    exact isZero_folded (build_folded ht)
  | binary op l r =>
    simp only [build, Checked.bind_eq_ok] at h
    obtain ⟨l', hl, r', hr, h⟩ := h
    exact mkBinary_folded (build_folded hl) (build_folded hr) h
  | compare op l r =>
    simp only [build, Checked.bind_eq_ok] at h
    obtain ⟨l', hl, r', hr, h⟩ := h
    exact mkCompare_folded (build_folded hl) (build_folded hr) h
  | ne l r =>
    simp only [build, Checked.bind_eq_ok] at h
    obtain ⟨l', hl, r', hr, h⟩ := h
    exact mkNe_folded (build_folded hl) (build_folded hr) h
  | ugt l r | uge l r | sgt l r | sge l r =>
    simp only [build, Checked.bind_eq_ok] at h
    obtain ⟨l', hl, r', hr, h⟩ := h
    exact mkCompare_folded (build_folded hr) (build_folded hl) h
  | all ts =>
    simp only [build, Checked.bind_eq_ok] at h
    obtain ⟨es, hes, h⟩ := h
    exact foldlM_mkBinary_folded (folded_bool true) (buildAll_folded hes) h
  | any ts =>
    simp only [build, Checked.bind_eq_ok] at h
    obtain ⟨es, hes, h⟩ := h
    exact foldlM_mkBinary_folded (folded_bool false) (buildAll_folded hes) h

theorem buildWrites_folded {us : RawWrites} {u : Updates} (h : buildWrites us = .ok u) :
    u.Folded := by
  match us with
  | .base array =>
    obtain rfl : .base array = u := by simpa [buildWrites] using h
    exact Updates.folded_base array
  | .write i x older =>
    simp only [buildWrites, Checked.bind_eq_ok] at h
    obtain ⟨u', hu, i', hi, x', hx, h⟩ := h
    obtain ⟨-, rfl⟩ := Updates.extend_eq_ok.1 h
    exact Updates.folded_write.2 ⟨build_folded hi, build_folded hx, buildWrites_folded hu⟩

theorem buildAll_folded {ts : List RawTerm} {es : List Expr} (h : buildAll ts = .ok es) :
    ∀ e ∈ es, e.Folded := by
  match ts with
  | [] =>
    obtain rfl : [] = es := by simpa [buildAll] using h
    simp
  | t :: ts =>
    simp only [buildAll, Checked.bind_eq_ok, Checked.pure_eq_ok] at h
    obtain ⟨e, he, es, hes, rfl⟩ := h
    exact List.forall_mem_cons.2 ⟨build_folded he, buildAll_folded hes⟩

end

end RawTerm

end Symex
