import Mathlib.Data.List.Forall2
import Symex.Proofs.Constructors
import Symex.Proofs.Language

namespace Symex

/-- Under the assignment `a`, the expression `e` is a well-formed one of the value `x`. -/
structure Denotes {w : Nat} (a : Assignment) (e : Expr) (x : BitVec w) : Prop where
  wellFormed : e.WellFormed
  width_eq : e.width = w
  eval_eq : a.eval e = some x.toNat

variable {a : Assignment} {w w' : Nat} {x : BitVec w} {y : BitVec w'} {e e' : Expr}

theorem Refines.denotes (h : Refines a e e') (he : Denotes a e x) : Denotes a e' x :=
  ⟨h.wellFormed, h.width_eq.trans he.width_eq, h.eval_eq he.eval_eq⟩

namespace Denotes

theorem setWidth (h : Denotes a e y) (hw : w' = w) : Denotes a e (y.setWidth w) := by
  subst hw
  rwa [BitVec.setWidth_eq]

theorem bool (b : Bool) : Denotes a (.bool b) (BitVec.ofBool b) := by
  refine ⟨Expr.bool_wellFormed b, rfl, ?_⟩
  rw [Assignment.eval_bool, BitVec.toNat_ofBool]

theorem word (v : Nat) (h0 : 0 < w) (h : w ≤ 64) : Denotes a (.word v w) (BitVec.ofNat w v) := by
  refine ⟨Expr.word_wellFormed v h0 h, rfl, ?_⟩
  rw [Assignment.eval_word, BitVec.toNat_ofNat]

theorem select {c t f : Expr} {z : BitVec 1} {y : BitVec w} (hc : Denotes a c z)
    (ht : Denotes a t x) (hf : Denotes a f y) :
    Denotes a (.select c t f) (if z = 0 then y else x) := by
  refine ⟨?_, ht.width_eq, Assignment.eval_select.2 ⟨z.toNat, hc.eval_eq, ?_⟩⟩
  · simp only [Expr.WellFormed]
    exact ⟨hc.wellFormed, ht.wellFormed, hf.wellFormed, hc.width_eq,
      ht.width_eq.trans hf.width_eq.symm⟩
  · have hz : z.toNat = 0 ↔ z = 0 := BitVec.toNat_inj (y := 0)
    simp only [hz]
    split
    · exact hf.eval_eq
    · exact ht.eval_eq

theorem concat {m l : Expr} (hm : Denotes a m x) (hl : Denotes a l y) (h : w + w' ≤ 64) :
    Denotes a (.concat m l) (x ++ y) := by
  have hw : m.width + l.width = w + w' := by rw [hm.width_eq, hl.width_eq]
  refine ⟨?_, hw, Assignment.eval_concat.2 ⟨_, _, hm.eval_eq, hl.eval_eq, ?_⟩⟩
  · simp only [Expr.WellFormed, maxWidth_eq, hw]
    exact ⟨hm.wellFormed, hl.wellFormed, h⟩
  · rw [hl.width_eq, BitVec.toNat_append]

theorem extract {o : Nat} (he : Denotes a e y) (h0 : 0 < w) (h : o + w ≤ w') :
    Denotes a (.extract e o w) (y.extractLsb' o w) := by
  refine ⟨?_, rfl, Assignment.eval_extract.2 ⟨_, he.eval_eq, ?_⟩⟩
  · simp only [Expr.WellFormed, he.width_eq]
    exact ⟨he.wellFormed, h0, h⟩
  · rw [BitVec.extractLsb'_toNat]

theorem zext (he : Denotes a e y) (h : w' ≤ w) (h64 : w ≤ 64) :
    Denotes a (.zext e w) (y.setWidth w) := by
  refine ⟨?_, rfl, ?_⟩
  · simp only [Expr.WellFormed, he.width_eq]
    exact ⟨he.wellFormed, h, h64⟩
  · rw [Assignment.eval_zext, he.eval_eq, BitVec.toNat_setWidth_of_le h]

theorem sext (he : Denotes a e y) (h : w' ≤ w) (h64 : w ≤ 64) :
    Denotes a (.sext e w) (y.signExtend w) := by
  refine ⟨?_, rfl, Assignment.eval_sext.2 ⟨_, he.eval_eq, ?_⟩⟩
  · simp only [Expr.WellFormed, he.width_eq]
    exact ⟨he.wellFormed, h, h64⟩
  · rw [he.width_eq, Bits.toSigned_toNat, Bits.ofSigned_eq_toNat, BitVec.signExtend]

theorem not (he : Denotes a e x) : Denotes a (.not e) (~~~x) := by
  refine ⟨?_, he.width_eq, Assignment.eval_not.2 ⟨_, he.eval_eq, ?_⟩⟩
  · simp only [Expr.WellFormed]
    exact he.wellFormed
  · rw [he.width_eq, BitVec.toNat_not, Nat.mod_eq_of_lt x.isLt]

theorem binary (op : BinOp) {l r : Expr} {y : BitVec w} (hl : Denotes a l x) (hr : Denotes a r y) :
    Denotes a (.binary op l r) (op.denote x y) := by
  refine ⟨?_, hl.width_eq, Assignment.eval_binary.2 ⟨_, _, hl.eval_eq, hr.eval_eq, ?_⟩⟩
  · simp only [Expr.WellFormed]
    exact ⟨hl.wellFormed, hr.wellFormed, hl.width_eq.trans hr.width_eq.symm⟩
  · rw [hl.width_eq, op.fold_toNat]

theorem compare (op : CmpOp) {l r : Expr} {y : BitVec w} (hl : Denotes a l x)
    (hr : Denotes a r y) : Denotes a (.compare op l r) (BitVec.ofBool (op.denote x y)) := by
  refine ⟨?_, rfl, Assignment.eval_compare.2 ⟨_, _, hl.eval_eq, hr.eval_eq, ?_⟩⟩
  · simp only [Expr.WellFormed]
    exact ⟨hl.wellFormed, hr.wellFormed, hl.width_eq.trans hr.width_eq.symm⟩
  · rw [hl.width_eq, op.fold_toNat, BitVec.toNat_ofBool]

theorem isZero (he : Denotes a e x) : Denotes a (Expr.isZero e) (BitVec.ofBool (x == 0)) := by
  have hr := he.wellFormed.width_range
  have hz : Denotes a (.const 0 e.width) 0#w := by
    rw [← Expr.word_zero, he.width_eq]
    exact word 0 (he.width_eq ▸ hr.1) (he.width_eq ▸ hr.2)
  have h := (Expr.isZero_refines he.wellFormed).denotes (hz.compare .eq he)
  rwa [CmpOp.denote, BEq.comm] at h

theorem mkSelect {c t f : Expr} {z : BitVec w'} {w'' : Nat} {y : BitVec w''} (hc : Denotes a c z)
    (ht : Denotes a t x) (hf : Denotes a f y) (h : Expr.mkSelect c t f = .ok e) :
    Denotes a e (if z = 0 then y.setWidth w else x) := by
  obtain ⟨⟨hcw, hw⟩, rfl⟩ := Expr.mkSelect_eq_ok.1 h
  obtain rfl : w' = 1 := hc.width_eq.symm.trans hcw
  have hs := hc.select ht (hf.setWidth (hf.width_eq.symm.trans (hw.symm.trans ht.width_eq)))
  exact (Expr.selectCore_refines hs.wellFormed).denotes hs

theorem mkConcat {m l : Expr} (hm : Denotes a m x) (hl : Denotes a l y)
    (h : Expr.mkConcat m l = .ok e) : Denotes a e (x ++ y) := by
  obtain ⟨hw, rfl⟩ := Expr.mkConcat_eq_ok.1 h
  rw [hm.width_eq, hl.width_eq] at hw
  have hc := hm.concat hl hw
  exact (Expr.concatCore_refines hc.wellFormed).denotes hc

theorem mkExtract {o : Nat} (he : Denotes a e y) (h : Expr.mkExtract e o w = .ok e') :
    Denotes a e' (y.extractLsb' o w) := by
  obtain ⟨⟨h0, hw⟩, rfl⟩ := Expr.mkExtract_eq_ok.1 h
  rw [he.width_eq] at hw
  have hx := he.extract h0 hw
  exact (Expr.extractCore_refines hx.wellFormed).denotes hx

theorem mkTruncate (he : Denotes a e y) (h : Expr.mkExtract e 0 w = .ok e') :
    Denotes a e' (y.setWidth w) := by
  have hw := (Expr.mkExtract_eq_ok.1 h).1.2
  rw [he.width_eq, Nat.zero_add] at hw
  rw [BitVec.setWidth_eq_extractLsb' hw]
  exact he.mkExtract h

theorem mkZext (he : Denotes a e y) (h : Expr.mkZext e w = .ok e') :
    Denotes a e' (y.setWidth w) := by
  by_cases hlt : w < e.width
  · rw [Expr.mkZext_of_lt hlt] at h
    exact he.mkTruncate h
  · have hle : w' ≤ w := by rw [← he.width_eq]; omega
    have hz := he.zext hle (Expr.width_le_of_mkZext he.wellFormed h)
    exact (Expr.zext_refines hz.wellFormed h).denotes hz

theorem mkSext (he : Denotes a e y) (h : Expr.mkSext e w = .ok e') :
    Denotes a e' (y.signExtend w) := by
  by_cases hlt : w < e.width
  · rw [Expr.mkSext_of_lt hlt] at h
    rw [BitVec.signExtend_eq_setWidth_of_le _ (by rw [← he.width_eq]; omega)]
    exact he.mkTruncate h
  · have hle : w' ≤ w := by rw [← he.width_eq]; omega
    have hs := he.sext hle (Expr.width_le_of_mkSext he.wellFormed h)
    exact (Expr.sext_refines hs.wellFormed h).denotes hs

theorem mkBinary {op : BinOp} {l r : Expr} (hl : Denotes a l x) (hr : Denotes a r y)
    (h : Expr.mkBinary op l r = .ok e) : Denotes a e (op.denote x (y.setWidth w)) := by
  obtain ⟨hw, rfl⟩ := Expr.mkBinary_eq_ok.1 h
  rw [hl.width_eq, hr.width_eq] at hw
  have hb := hl.binary op (hr.setWidth hw.symm)
  exact (Expr.binaryCore_refines hb.wellFormed).denotes hb

theorem mkCompare {op : CmpOp} {l r : Expr} (hl : Denotes a l x) (hr : Denotes a r y)
    (h : Expr.mkCompare op l r = .ok e) :
    Denotes a e (BitVec.ofBool (op.denote x (y.setWidth w))) := by
  obtain ⟨hw, rfl⟩ := Expr.mkCompare_eq_ok.1 h
  rw [hl.width_eq, hr.width_eq] at hw
  have hc := hl.compare op (hr.setWidth hw.symm)
  exact (Expr.compareCore_refines hc.wellFormed).denotes hc

theorem mkAnd {b : Bool} {l r : Expr} (hl : Denotes a l (BitVec.ofBool b)) (hr : Denotes a r y)
    (h : Expr.mkAnd l r = .ok e) : Denotes a e (BitVec.ofBool (b && y != 0)) := by
  have hw := (Expr.mkBinary_eq_ok.1 h).1
  rw [hl.width_eq, hr.width_eq] at hw
  subst hw
  have hand := hl.mkBinary hr h
  have hbit : ∀ (b : Bool) (y : BitVec 1),
      BinOp.and.denote (BitVec.ofBool b) y = BitVec.ofBool (b && y != 0) := by decide
  rwa [BitVec.setWidth_eq, hbit] at hand

theorem mkOr {b : Bool} {l r : Expr} (hl : Denotes a l (BitVec.ofBool b)) (hr : Denotes a r y)
    (h : Expr.mkOr l r = .ok e) : Denotes a e (BitVec.ofBool (b || y != 0)) := by
  have hw := (Expr.mkBinary_eq_ok.1 h).1
  rw [hl.width_eq, hr.width_eq] at hw
  subst hw
  have hor := hl.mkBinary hr h
  have hbit : ∀ (b : Bool) (y : BitVec 1),
      BinOp.or.denote (BitVec.ofBool b) y = BitVec.ofBool (b || y != 0) := by decide
  rwa [BitVec.setWidth_eq, hbit] at hor

theorem mkNe {l r : Expr} (hl : Denotes a l x) (hr : Denotes a r y) (h : Expr.mkNe l r = .ok e) :
    Denotes a e (BitVec.ofBool (x != y.setWidth w)) := by
  simp only [Expr.mkNe, Checked.bind_eq_ok, Checked.pure_eq_ok] at h
  obtain ⟨c, hc, rfl⟩ := h
  have hz := (hl.mkCompare hr hc).isZero
  have hbit : ∀ b : Bool, (BitVec.ofBool b == 0) = !b := by decide
  rwa [hbit] at hz

theorem mkCompare_swap (op : CmpOp) {l r : Expr} (hl : Denotes a l x) (hr : Denotes a r y)
    (h : Expr.mkCompare op r l = .ok e) :
    Denotes a e (BitVec.ofBool (op.denote (y.setWidth w) x)) := by
  have hw := (Expr.mkCompare_eq_ok.1 h).1
  rw [hl.width_eq, hr.width_eq] at hw
  subst hw
  simpa only [BitVec.setWidth_eq] using hr.mkCompare hl h

end Denotes

namespace RawTerm

theorem mkAll_denotes {ts : List RawTerm} {es : List Expr} {acc : Expr} {b : Bool}
    (hts : List.Forall₂ (fun t e ↦ Denotes a e (t.denote a)) ts es)
    (hacc : Denotes a acc (BitVec.ofBool b)) (h : es.foldlM Expr.mkAnd acc = .ok e) :
    Denotes a e (BitVec.ofBool (b && allHold a ts)) := by
  induction hts generalizing acc b with
  | nil =>
    obtain rfl : acc = e := by simpa using h
    rwa [allHold, Bool.and_true]
  | cons ht _ ih =>
    rw [List.foldlM_cons, Checked.bind_eq_ok] at h
    obtain ⟨acc', hand, h⟩ := h
    rw [allHold, ← Bool.and_assoc]
    exact ih (hacc.mkAnd ht hand) h

theorem mkAny_denotes {ts : List RawTerm} {es : List Expr} {acc : Expr} {b : Bool}
    (hts : List.Forall₂ (fun t e ↦ Denotes a e (t.denote a)) ts es)
    (hacc : Denotes a acc (BitVec.ofBool b)) (h : es.foldlM Expr.mkOr acc = .ok e) :
    Denotes a e (BitVec.ofBool (b || anyHolds a ts)) := by
  induction hts generalizing acc b with
  | nil =>
    obtain rfl : acc = e := by simpa using h
    rwa [anyHolds, Bool.or_false]
  | cons ht _ ih =>
    rw [List.foldlM_cons, Checked.bind_eq_ok] at h
    obtain ⟨acc', hor, h⟩ := h
    rw [anyHolds, ← Bool.or_assoc]
    exact ih (hacc.mkOr ht hor) h

theorem evalRead_base_denotes (ha : a.free) (array : NamedArray) (n : BitVec 32) :
    a.evalRead (.base array) n.toNat = some (denoteRead a (.base array) n).toNat := by
  obtain ⟨v, hv⟩ := Assignment.exists_evalRead ha (.base array) n.toNat
  rw [Assignment.evalRead_base, Option.map_eq_some_iff] at hv
  obtain ⟨b, hb, -⟩ := hv
  rw [Assignment.evalRead_base, denoteRead, hb]
  rfl

theorem evalRead_write_denotes {i x : RawTerm} {older : RawWrites} {i' x' : Expr} {u : Updates}
    {n : BitVec 32} (hi : Denotes a i' (i.denote a)) (hx : Denotes a x' (x.denote a))
    (hiw : i'.width = 32) (hxw : x'.width = 8)
    (hu : a.evalRead u n.toNat = some (denoteRead a older n).toNat) :
    a.evalRead (.write i' x' u) n.toNat = some (denoteRead a (.write i x older) n).toNat := by
  have hi32 := hi.setWidth (hi.width_eq.symm.trans hiw)
  have hx8 := hx.setWidth (hx.width_eq.symm.trans hxw)
  refine Assignment.evalRead_write.2 ⟨_, hi32.eval_eq, ?_⟩
  rw [denoteRead]
  simp only [BitVec.toNat_inj]
  split
  · exact hx8.eval_eq
  · exact hu

mutual

theorem build_denotes (ha : a.free) {t : RawTerm} {e : Expr} (h : t.build = .ok e) :
    Denotes a e (t.denote a) := by
  match t with
  | constant v w =>
    obtain ⟨⟨h0, hw⟩, rfl⟩ := Expr.constant_eq_ok.1 h
    exact .word v h0 hw
  | bool b =>
    obtain rfl : .bool b = e := by simpa [build] using h
    exact .bool b
  | pointer v =>
    obtain rfl : .pointer v = e := by simpa [build] using h
    exact Denotes.word (w := 64) v (by decide) (by decide)
  | read us i =>
    simp only [build, Checked.bind_eq_ok] at h
    obtain ⟨u, hu, i', hi, h⟩ := h
    obtain ⟨hw, rfl⟩ := Expr.mkRead_eq_ok.1 h
    have hi' := build_denotes ha hi
    have hi32 := hi'.setWidth (hi'.width_eq.symm.trans hw)
    obtain ⟨hwf, hread⟩ := buildWrites_denotes ha hu
    have hr : Denotes a (.read u i') (denoteRead a us ((i.denote a).setWidth 32)) := by
      refine ⟨?_, rfl, Assignment.eval_read.2 ⟨_, hi32.eval_eq, hread _⟩⟩
      simp only [Expr.WellFormed]
      exact ⟨hwf, hi'.wellFormed, hw⟩
    exact (Expr.readCore_refines hr.wellFormed).denotes hr
  | select c t f =>
    simp only [build, Checked.bind_eq_ok] at h
    obtain ⟨c', hc, t', ht, f', hf, h⟩ := h
    exact (build_denotes ha hc).mkSelect (build_denotes ha ht) (build_denotes ha hf) h
  | concat m l =>
    simp only [build, Checked.bind_eq_ok] at h
    obtain ⟨m', hm, l', hl, h⟩ := h
    exact (build_denotes ha hm).mkConcat (build_denotes ha hl) h
  | extract t offset w =>
    simp only [build, Checked.bind_eq_ok] at h
    obtain ⟨t', ht, h⟩ := h
    exact (build_denotes ha ht).mkExtract h
  | truncate t w =>
    simp only [build, Checked.bind_eq_ok] at h
    obtain ⟨t', ht, h⟩ := h
    exact (build_denotes ha ht).mkTruncate h
  | zext t w =>
    simp only [build, Checked.bind_eq_ok] at h
    obtain ⟨t', ht, h⟩ := h
    exact (build_denotes ha ht).mkZext h
  | sext t w =>
    simp only [build, Checked.bind_eq_ok] at h
    obtain ⟨t', ht, h⟩ := h
    exact (build_denotes ha ht).mkSext h
  | not t =>
    simp only [build, Checked.bind_eq_ok, Checked.pure_eq_ok] at h
    obtain ⟨t', ht, rfl⟩ := h
    have hn := (build_denotes ha ht).not
    exact (Expr.mkNot_refines (build_denotes ha ht).wellFormed).denotes hn
  | isZero t =>
    simp only [build, Checked.bind_eq_ok, Checked.pure_eq_ok] at h
    obtain ⟨t', ht, rfl⟩ := h
    exact (build_denotes ha ht).isZero
  | binary op l r =>
    simp only [build, Checked.bind_eq_ok] at h
    obtain ⟨l', hl, r', hr, h⟩ := h
    exact (build_denotes ha hl).mkBinary (build_denotes ha hr) h
  | compare op l r =>
    simp only [build, Checked.bind_eq_ok] at h
    obtain ⟨l', hl, r', hr, h⟩ := h
    exact (build_denotes ha hl).mkCompare (build_denotes ha hr) h
  | ne l r =>
    simp only [build, Checked.bind_eq_ok] at h
    obtain ⟨l', hl, r', hr, h⟩ := h
    exact (build_denotes ha hl).mkNe (build_denotes ha hr) h
  | ugt l r =>
    simp only [build, Checked.bind_eq_ok] at h
    obtain ⟨l', hl, r', hr, h⟩ := h
    exact (build_denotes ha hl).mkCompare_swap .ult (build_denotes ha hr) h
  | uge l r =>
    simp only [build, Checked.bind_eq_ok] at h
    obtain ⟨l', hl, r', hr, h⟩ := h
    exact (build_denotes ha hl).mkCompare_swap .ule (build_denotes ha hr) h
  | sgt l r =>
    simp only [build, Checked.bind_eq_ok] at h
    obtain ⟨l', hl, r', hr, h⟩ := h
    exact (build_denotes ha hl).mkCompare_swap .slt (build_denotes ha hr) h
  | sge l r =>
    simp only [build, Checked.bind_eq_ok] at h
    obtain ⟨l', hl, r', hr, h⟩ := h
    exact (build_denotes ha hl).mkCompare_swap .sle (build_denotes ha hr) h
  | all ts =>
    simp only [build, Checked.bind_eq_ok] at h
    obtain ⟨es, hes, h⟩ := h
    have hd := mkAll_denotes (buildAll_denotes ha hes) (.bool true) h
    rwa [Bool.true_and] at hd
  | any ts =>
    simp only [build, Checked.bind_eq_ok] at h
    obtain ⟨es, hes, h⟩ := h
    have hd := mkAny_denotes (buildAll_denotes ha hes) (.bool false) h
    rwa [Bool.false_or] at hd

theorem buildWrites_denotes (ha : a.free) {us : RawWrites} {u : Updates}
    (h : buildWrites us = .ok u) :
    u.WellFormed ∧ ∀ n : BitVec 32, a.evalRead u n.toNat = some (denoteRead a us n).toNat := by
  match us with
  | .base array =>
    obtain rfl : .base array = u := by simpa [buildWrites] using h
    exact ⟨by simp, evalRead_base_denotes ha array⟩
  | .write i x older =>
    simp only [buildWrites, Checked.bind_eq_ok] at h
    obtain ⟨u', hu, i', hi, x', hx, h⟩ := h
    obtain ⟨⟨hiw, hxw⟩, rfl⟩ := Updates.extend_eq_ok.1 h
    obtain ⟨hwf, hread⟩ := buildWrites_denotes ha hu
    have hi' := build_denotes ha hi
    have hx' := build_denotes ha hx
    refine ⟨?_, fun n ↦ evalRead_write_denotes hi' hx' hiw hxw (hread n)⟩
    simp only [Updates.WellFormed]
    exact ⟨hi'.wellFormed, hx'.wellFormed, hwf, hiw, hxw⟩

theorem buildAll_denotes (ha : a.free) {ts : List RawTerm} {es : List Expr}
    (h : buildAll ts = .ok es) : List.Forall₂ (fun t e ↦ Denotes a e (t.denote a)) ts es := by
  match ts with
  | [] =>
    obtain rfl : [] = es := by simpa [buildAll] using h
    exact .nil
  | t :: ts =>
    simp only [buildAll, Checked.bind_eq_ok, Checked.pure_eq_ok] at h
    obtain ⟨e, he, es, hes, rfl⟩ := h
    exact .cons (build_denotes ha he) (buildAll_denotes ha hes)

end

/-- Nothing that the constructors simplify changes a value: what is built from a term has the width
of the term and, under every assignment that leaves no byte unknown, the value that the term means. -/
theorem value_of_build {t : RawTerm} {e : Expr} (h : t.build = .ok e) {a : Assignment}
    (ha : a.free) :
    e.width = t.width ∧ a.value? e = some (t.denote a).toNat ∧
      (t.denote a).toNat < 2 ^ e.width := by
  have hd := build_denotes ha h
  refine ⟨hd.width_eq, ?_, ?_⟩
  · rw [Assignment.value?_eq_eval]
    exact hd.eval_eq
  · rw [hd.width_eq]
    exact (t.denote a).isLt

/-- The sum of zero and a byte, extended. -/
theorem value_of_build_extended_byte :
    ((Assignment.mk true {}).bind "x" ⟨#[1, 2, 3]⟩).value?
        (.zext (.read (.base (.symbolic "x" 4)) (.const 2 32)) 16) =
      some ((RawTerm.zext (.binary .add (.constant 0 8)
        (.read (.base (.symbolic "x" 4)) (.constant 2 32))) 16).denote
          ((Assignment.mk true {}).bind "x" ⟨#[1, 2, 3]⟩)).toNat :=
  (value_of_build rfl rfl).2.1

end RawTerm

end Symex
