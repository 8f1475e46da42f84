import Symex.Proofs.Arrays

namespace Symex

open Bits

/-- The value of a term whose inputs are all known. -/
def Assignment.val (a : Assignment) (e : Expr) : Nat := (a.eval e).getD 0

variable {a : Assignment} {e e' : Expr} {v w : Nat}

theorem Assignment.val_eq (h : a.eval e = some v) : a.val e = v := by rw [val, h, Option.getD_some]

theorem Assignment.eval_eq_val (ha : a.free) (e : Expr) : a.eval e = some (a.val e) := by
  obtain ⟨v, hv⟩ := exists_eval ha e
  rw [hv, val_eq hv]

theorem Assignment.val_lt (ha : a.free) (he : e.WellFormed) : a.val e < 2 ^ e.width :=
  eval_lt he (a.eval_eq_val ha e)

@[simp] theorem Assignment.val_const (a : Assignment) (v w : Nat) : a.val (.const v w) = v :=
  val_eq (eval_const a v w)

namespace Refines

theorem val_eq (ha : a.free) (h : Refines a e e') : a.val e' = a.val e :=
  Assignment.val_eq (h.eval_eq (a.eval_eq_val ha e))

end Refines

namespace Assignment

theorem val_binary (ha : a.free) (op : BinOp) (l r : Expr) :
    a.val (.binary op l r) = op.fold (a.val l) (a.val r) l.width :=
  val_eq (eval_binary.2 ⟨_, _, a.eval_eq_val ha l, a.eval_eq_val ha r, rfl⟩)

theorem val_compare (ha : a.free) (op : CmpOp) (l r : Expr) :
    a.val (.compare op l r) = (op.fold (a.val l) (a.val r) l.width).toNat :=
  val_eq (eval_compare.2 ⟨_, _, a.eval_eq_val ha l, a.eval_eq_val ha r, rfl⟩)

theorem val_concat (ha : a.free) (m l : Expr) :
    a.val (.concat m l) = (a.val m <<< l.width) ||| a.val l :=
  val_eq (eval_concat.2 ⟨_, _, a.eval_eq_val ha m, a.eval_eq_val ha l, rfl⟩)

theorem val_extract (ha : a.free) (e : Expr) (o w : Nat) :
    a.val (.extract e o w) = (a.val e >>> o) % 2 ^ w :=
  val_eq (eval_extract.2 ⟨_, a.eval_eq_val ha e, rfl⟩)

theorem val_zext (a : Assignment) (e : Expr) (w : Nat) : a.val (.zext e w) = a.val e := by
  rw [val, val, eval_zext]

theorem val_word (a : Assignment) (n w : Nat) : a.val (.word n w) = n % 2 ^ w := val_eq (eval_word ..)

theorem val_of_value? {e : Expr} {n : Nat} (h : e.value? = some n) (a : Assignment) : a.val e = n := by
  rw [Expr.value?_eq_some.1 h, val_const]

end Assignment

/-- A well-formed term over the arrays in `S`. -/
structure Expr.Over (S : NamedArray → Prop) (e : Expr) : Prop where
  wellFormed : e.WellFormed
  readsIn : e.ReadsIn S

namespace Expr

variable {S : NamedArray → Prop} {l r : Expr}

theorem not_isConst {e : Expr} (h : e.value? = none) : ¬e.isConst = true := by
  rw [isConst_iff]
  rintro ⟨n, hn⟩
  rw [value?_eq_some.2 hn] at h
  cases h

theorem over_word (v : Nat) (h0 : 0 < w) (h : w ≤ 64) : (word v w).Over S :=
  ⟨word_wellFormed v h0 h, readsIn_word ..⟩

theorem over_constant (h : constant v w = .ok e) : e.Over S := by
  obtain ⟨hw, rfl⟩ := constant_eq_ok.1 h
  exact over_word v hw.1 hw.2

theorem binary_wellFormed {op : BinOp} (hl : l.WellFormed) (hr : r.WellFormed)
    (hw : l.width = r.width) : (Expr.binary op l r).WellFormed := by
  simp only [WellFormed]
  exact ⟨hl, hr, hw⟩

theorem mkBinary_over {op : BinOp} (hl : l.Over S) (hr : r.Over S) (h : mkBinary op l r = .ok e) :
    e.Over S ∧ e.width = l.width := by
  obtain ⟨hw, rfl⟩ := mkBinary_eq_ok.1 h
  have href : Refines ⟨true, {}⟩ (.binary op l r) (binaryCore op l r) :=
    binaryCore_refines (binary_wellFormed hl.wellFormed hr.wellFormed hw)
  exact ⟨⟨href.wellFormed, binaryCore_readsIn hl.readsIn hr.readsIn⟩, href.width_eq⟩

theorem val_mkBinary {op : BinOp} (ha : a.free) (hl : l.WellFormed) (hr : r.WellFormed)
    (h : mkBinary op l r = .ok e) : a.val e = op.fold (a.val l) (a.val r) l.width := by
  obtain ⟨hw, rfl⟩ := mkBinary_eq_ok.1 h
  rw [(binaryCore_refines (binary_wellFormed hl hr hw)).val_eq ha, Assignment.val_binary ha]

theorem compare_wellFormed {op : CmpOp} (hl : l.WellFormed) (hr : r.WellFormed)
    (hw : l.width = r.width) : (Expr.compare op l r).WellFormed := by
  simp only [WellFormed]
  exact ⟨hl, hr, hw⟩

theorem mkCompare_over {op : CmpOp} (hl : l.Over S) (hr : r.Over S)
    (h : mkCompare op l r = .ok e) : e.Over S ∧ e.width = 1 := by
  obtain ⟨hw, rfl⟩ := mkCompare_eq_ok.1 h
  have href : Refines ⟨true, {}⟩ (.compare op l r) (compareCore op l r) :=
    compareCore_refines (compare_wellFormed hl.wellFormed hr.wellFormed hw)
  exact ⟨⟨href.wellFormed, compareCore_readsIn hl.readsIn hr.readsIn⟩, href.width_eq⟩

theorem val_mkCompare {op : CmpOp} (ha : a.free) (hl : l.WellFormed) (hr : r.WellFormed)
    (h : mkCompare op l r = .ok e) :
    a.val e = (op.fold (a.val l) (a.val r) l.width).toNat := by
  obtain ⟨hw, rfl⟩ := mkCompare_eq_ok.1 h
  rw [(compareCore_refines (compare_wellFormed hl hr hw)).val_eq ha, Assignment.val_compare ha]

theorem val_isZero (ha : a.free) (he : e.WellFormed) :
    a.val (isZero e) = if a.val e = 0 then 1 else 0 := by
  have hlt := a.val_lt ha he
  rw [(isZero_refines he).val_eq ha, Assignment.val_compare ha]
  simp only [CmpOp.fold, Assignment.val_const, width_const, trunc_eq, Nat.zero_mod,
    Nat.mod_eq_of_lt hlt]
  by_cases h0 : a.val e = 0
  · simp [h0]
  · have hne : (0 == a.val e) = false := by simpa using Ne.symm h0
    simp [h0, hne]

theorem select_wellFormed {c t f : Expr} (hc : c.WellFormed) (ht : t.WellFormed) (hf : f.WellFormed)
    (hw : c.width = 1 ∧ t.width = f.width) : (Expr.select c t f).WellFormed := by
  simp only [WellFormed]
  exact ⟨hc, ht, hf, hw⟩

theorem extract_wellFormed {o : Nat} (he : e.WellFormed) (hw : 0 < w ∧ o + w ≤ e.width) :
    (Expr.extract e o w).WellFormed := by
  simp only [WellFormed]
  exact ⟨he, hw⟩

theorem mkExtract_over {o : Nat} (he : e.Over S) (h : mkExtract e o w = .ok e') :
    e'.Over S ∧ e'.width = w := by
  obtain ⟨hw, rfl⟩ := mkExtract_eq_ok.1 h
  have href := extractCore_refines (a := ⟨true, {}⟩) (extract_wellFormed he.wellFormed hw)
  exact ⟨⟨href.wellFormed, extractCore_readsIn he.readsIn⟩, href.width_eq⟩

theorem val_mkExtract {o : Nat} (ha : a.free) (he : e.WellFormed) (h : mkExtract e o w = .ok e') :
    a.val e' = (a.val e >>> o) % 2 ^ w := by
  obtain ⟨hw, rfl⟩ := mkExtract_eq_ok.1 h
  rw [(extractCore_refines (extract_wellFormed he hw)).val_eq ha, Assignment.val_extract ha]

theorem concat_wellFormed {m : Expr} (hm : m.WellFormed) (hl : l.WellFormed)
    (hw : m.width + l.width ≤ 64) : (Expr.concat m l).WellFormed := by
  simp only [WellFormed]
  exact ⟨hm, hl, hw⟩

theorem mkConcat_over {m : Expr} (hm : m.Over S) (hl : l.Over S) (h : mkConcat m l = .ok e) :
    e.Over S ∧ e.width = m.width + l.width := by
  obtain ⟨hw, rfl⟩ := mkConcat_eq_ok.1 h
  have href := concatCore_refines (a := ⟨true, {}⟩)
    (concat_wellFormed hm.wellFormed hl.wellFormed hw)
  exact ⟨⟨href.wellFormed, concatCore_readsIn hm.readsIn hl.readsIn⟩, href.width_eq⟩

theorem val_mkConcat {m : Expr} (ha : a.free) (hm : m.WellFormed) (hl : l.WellFormed)
    (h : mkConcat m l = .ok e) : a.val e = (a.val m <<< l.width) ||| a.val l := by
  obtain ⟨hw, rfl⟩ := mkConcat_eq_ok.1 h
  rw [(concatCore_refines (concat_wellFormed hm hl hw)).val_eq ha, Assignment.val_concat ha]

theorem mkZext_over (he : e.Over S) (h : mkZext e w = .ok e') :
    e'.Over S ∧ e'.width = w := by
  have hreads := mkZext_readsIn he.readsIn h
  obtain hlt | hge := Nat.lt_or_ge w e.width
  · rw [mkZext_of_lt hlt] at h
    exact mkExtract_over he h
  · have hwf : (Expr.zext e w).WellFormed := by
      simp only [WellFormed]
      exact ⟨he.wellFormed, hge, width_le_of_mkZext he.wellFormed h⟩
    have href := zext_refines (a := ⟨true, {}⟩) hwf h
    exact ⟨⟨href.wellFormed, hreads⟩, href.width_eq⟩

theorem val_mkZext (ha : a.free) (he : e.WellFormed) (h : mkZext e w = .ok e') :
    a.val e' = a.val e % 2 ^ w := by
  obtain hlt | hge := Nat.lt_or_ge w e.width
  · rw [mkZext_of_lt hlt] at h
    rw [val_mkExtract ha he h, Nat.shiftRight_zero]
  · have hwf : (Expr.zext e w).WellFormed := by
      simp only [WellFormed]
      exact ⟨he, hge, width_le_of_mkZext he h⟩
    rw [(zext_refines hwf h).val_eq ha, Assignment.val_zext, Nat.mod_eq_of_lt]
    exact Nat.lt_of_lt_of_le (a.val_lt ha he) (Nat.pow_le_pow_right (by decide) hge)

theorem mkSext_over (he : e.Over S) (h : mkSext e w = .ok e') :
    e'.Over S ∧ e'.width = w := by
  have hreads := mkSext_readsIn he.readsIn h
  obtain hlt | hge := Nat.lt_or_ge w e.width
  · rw [mkSext_of_lt hlt] at h
    exact mkExtract_over he h
  · have hwf : (Expr.sext e w).WellFormed := by
      simp only [WellFormed]
      exact ⟨he.wellFormed, hge, width_le_of_mkSext he.wellFormed h⟩
    have href := sext_refines (a := ⟨true, {}⟩) hwf h
    exact ⟨⟨href.wellFormed, hreads⟩, href.width_eq⟩

theorem WellFormed.over (he : e.WellFormed) : e.Over fun _ ↦ True := ⟨he, e.readsIn_true⟩

theorem WellFormed.exists_mkBinary (hl : l.WellFormed) (hr : r.WellFormed) (op : BinOp)
    (hw : l.width = r.width) : ∃ e, mkBinary op l r = .ok e ∧ e.WellFormed ∧ e.width = l.width := by
  have h : mkBinary op l r = .ok (binaryCore op l r) := mkBinary_eq_ok.2 ⟨hw, rfl⟩
  obtain ⟨hover, hwidth⟩ := mkBinary_over hl.over hr.over h
  exact ⟨_, h, hover.wellFormed, hwidth⟩

theorem WellFormed.exists_mkCompare (hl : l.WellFormed) (hr : r.WellFormed) (op : CmpOp)
    (hw : l.width = r.width) : ∃ e, mkCompare op l r = .ok e ∧ e.WellFormed ∧ e.width = 1 := by
  have h : mkCompare op l r = .ok (compareCore op l r) := mkCompare_eq_ok.2 ⟨hw, rfl⟩
  obtain ⟨hover, hwidth⟩ := mkCompare_over hl.over hr.over h
  exact ⟨_, h, hover.wellFormed, hwidth⟩

end Expr

end Symex
