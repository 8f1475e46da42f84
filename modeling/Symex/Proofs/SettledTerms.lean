import Symex.Proofs.FoldedTerms
import Symex.Proofs.Weights

namespace Symex

open Checked

mutual

/-- Every node, also in writes, is what is made of its parts. -/
def Expr.Settled : Expr → Prop
  | .const _ _ => True
  | .read u i => Expr.readCore u i = .read u i ∧ u.Settled ∧ i.Settled
  | .select c t f => Expr.selectCore c t f = .select c t f ∧ c.Settled ∧ t.Settled ∧ f.Settled
  | .concat m l => Expr.concatCore m l = .concat m l ∧ m.Settled ∧ l.Settled
  | .extract x o w => Expr.extractCore x o w = .extract x o w ∧ x.Settled
  | .zext x w => Expr.mkZext x w = .ok (.zext x w) ∧ x.Settled
  | .sext x w => Expr.mkSext x w = .ok (.sext x w) ∧ x.Settled
  | .not x => Expr.mkNot x = .not x ∧ x.Settled
  | .binary op l r => Expr.binaryCore op l r = .binary op l r ∧ l.Settled ∧ r.Settled
  | .compare op l r => Expr.compareCore op l r = .compare op l r ∧ l.Settled ∧ r.Settled

def Updates.Settled : Updates → Prop
  | .base _ => True
  | .write i x older => i.Settled ∧ x.Settled ∧ older.Settled

end

theorem Updates.Settled.find {u : Updates} {n : Nat} {e : Expr} (h : u.Settled) (hf : u.find n = .value e) :
    e.Settled := by
  induction u with
  | base array => cases hf
  | write i x older ih =>
    rw [Updates.find] at hf
    split at hf
    · split at hf
      · obtain rfl := Found.value.inj hf
        exact h.2.1
      · exact ih h.2.2 hf
    · cases hf

namespace Expr

variable {c t f m l r e x : Expr} {u : Updates} {i : Expr} {o w : Nat}

@[simp] theorem settled_const (v w : Nat) : (Expr.const v w).Settled := trivial
@[simp] theorem settled_word (v w : Nat) : (word v w).Settled := settled_const ..
@[simp] theorem settled_bool (b : Bool) : (bool b).Settled := settled_const ..

/-! ## What the constructors give -/

theorem readCore_settled (hu : u.Settled) (hi : i.Settled) : (readCore u i).Settled := by
  by_cases hsame : readCore u i = .read u i
  · rw [hsame]
    exact ⟨hsame, hu, hi⟩
  · cases hv : i.value? with
    | none => exact (hsame (by rw [readCore, hv])).elim
    | some n =>
      cases hf : u.find n with
      | value e =>
        have hread : readCore u i = e := by rw [readCore, hv]; simp only [hf]
        rw [hread]
        exact hu.find hf
      | blocked => exact (hsame (by rw [readCore, hv]; simp only [hf])).elim
      | untouched =>
        cases hb : u.root.byte? n with
        | some b =>
          have hread : readCore u i = word b.toNat 8 := by rw [readCore, hv]; simp only [hf, hb]
          rw [hread]
          exact settled_word ..
        | none =>
          have hread : readCore u i = .read (.base u.root) i := by rw [readCore, hv]; simp only [hf, hb]
          have hbase : readCore (.base u.root) i = .read (.base u.root) i := by
            have hroot : (Updates.base u.root).root = u.root := rfl
            rw [readCore, hv]
            simp only [Updates.find, hroot, hb]
          rw [hread]
          exact ⟨hbase, trivial, hi⟩

theorem orderCore_cases (op : CmpOp) (l r : Expr) :
    (∃ b, orderCore op l r = bool b) ∨ orderCore op l r = .compare op l r := by
  unfold orderCore
  split
  · exact .inl ⟨_, rfl⟩
  · split
    · exact .inl ⟨_, rfl⟩
    · split
      · exact .inl ⟨_, rfl⟩
      · split
        · exact .inl ⟨_, rfl⟩
        · exact .inr rfl

theorem orderCore_settled {op : CmpOp} (hop : op ≠ .eq) (hl : l.Settled) (hr : r.Settled) :
    (orderCore op l r).Settled := by
  obtain ⟨b, h⟩ | h := orderCore_cases op l r
  · rw [h]
    exact settled_bool b
  · have hcore : compareCore op l r = orderCore op l r := by
      cases op with
      | eq => exact absurd rfl hop
      | ult | ule | slt | sle => rfl
    rw [h]
    exact ⟨hcore.trans h, hl, hr⟩

theorem eqCore_of_isConst_eq_false (hr : r.isConst = false) (hne : l ≠ r) : eqCore l r = eqOrdered l r := by
  have hv := isConst_eq_false_iff.1 hr
  rw [eqCore_eq, hv]
  split
  · rename_i h
    cases h
  · rw [if_neg hne, hr]
    rfl

theorem eqOrdered_settled (hconst : r.isConst = false) (hne : l ≠ r) (hl : l.Settled) (hr : r.Settled) :
    (eqOrdered l r).Settled := by
  have hsame (h : eqOrdered l r = .compare .eq l r) : (Expr.compare .eq l r).Settled :=
    ⟨(eqCore_of_isConst_eq_false hconst hne).trans h, hl, hr⟩
  unfold eqOrdered at hsame ⊢
  split
  · exact hr
  · rename_i htrue
    rw [if_neg htrue] at hsame
    split
    · rename_i hfalse
      rw [if_pos hfalse] at hsame
      split
      · split
        · exact hr.2.2
        · rename_i h
          exact hsame (if_neg h)
      · rename_i op x y hop
        refine orderCore_settled (fun h ↦ ?_) hr.2.2 hr.2.1
        cases op with
        | eq => exact hop rfl
        | ult | ule | slt | sle => cases h
      · exact hsame (by split <;> simp_all)
    · rename_i hfalse
      exact hsame (if_neg hfalse)

theorem eqCore_settled (hl : l.Settled) (hr : r.Settled) : (eqCore l r).Settled := by
  rw [eqCore_eq]
  split
  · exact settled_bool _
  · rename_i hconst
    have hconst := not_both_const hconst
    split
    · exact settled_bool true
    · rename_i hne
      split
      · rename_i hright
        rw [hright, Bool.and_true] at hconst
        exact eqOrdered_settled hconst (Ne.symm hne) hr hl
      · rename_i hright
        exact eqOrdered_settled (Bool.eq_false_iff.2 hright) hne hl hr

theorem compareCore_settled {op : CmpOp} (hl : l.Settled) (hr : r.Settled) : (compareCore op l r).Settled := by
  cases op with
  | eq => exact eqCore_settled hl hr
  | ult | ule | slt | sle => exact orderCore_settled nofun hl hr

theorem isZero_settled (h : e.Settled) : (isZero e).Settled := by
  unfold isZero
  split
  · exact settled_bool _
  · split
    · exact h.2.2
    · exact eqCore_settled (settled_word ..) h
  · rename_i op x y hop
    refine orderCore_settled (fun h ↦ ?_) h.2.2 h.2.1
    cases op with
    | eq => exact hop rfl
    | ult | ule | slt | sle => cases h
  · exact eqCore_settled (settled_word ..) h

theorem selectCore_settled (hc : c.Settled) (ht : t.Settled) (hf : f.Settled) : (selectCore c t f).Settled := by
  have hsame (h : selectCore c t f = .select c t f) : (Expr.select c t f).Settled := ⟨h, hc, ht, hf⟩
  unfold selectCore at hsame ⊢
  split
  · split
    · exact hf
    · exact ht
  · rename_i hnone
    rw [hnone] at hsame
    dsimp only at hsame
    split
    · exact ht
    · rename_i hne
      rw [if_neg hne] at hsame
      split
      · exact hc
      · rename_i hcondition
        rw [if_neg hcondition] at hsame
        split
        · exact isZero_settled hc
        · rename_i hnegation
          exact hsame (if_neg hnegation)

/-- The range of bits from `o` on is not one of a part of the term. -/
def Opaque (x : Expr) (o w : Nat) : Prop :=
  match x with
  | .const _ _ | .concat _ _ | .extract _ _ _ => False
  | .zext inner _ => o < inner.width ∧ inner.width < o + w
  | _ => True

theorem extractCore_ne_extract {y : Expr} {o' w' : Nat} (h : y.weight < x.weight) :
    extractCore y o' w' ≠ .extract x o w := by
  intro heq
  have hle := extractCore_weight_le y o' w'
  rw [heq, weight_extract, weight_extract] at hle
  omega

theorem extractCore_eq_extract_iff :
    extractCore x o w = .extract x o w ↔ ¬(o = 0 ∧ w = x.width) ∧ x.Opaque o w := by
  unfold extractCore
  split
  · rename_i hwhole
    refine ⟨fun h ↦ ?_, fun h ↦ absurd hwhole h.1⟩
    have hweight := congrArg weight h
    have hpos := x.weight_pos
    rw [weight_extract] at hweight
    omega
  · rename_i hpart
    simp only [hpart, not_false_eq_true, true_and]
    cases x with
    | const v n => exact ⟨nofun, False.elim⟩
    | concat m l =>
      refine ⟨fun h ↦ ?_, False.elim⟩
      dsimp only at h
      split at h
      · exact extractCore_ne_extract (by rw [weight_concat]; omega) h
      · split at h
        · exact extractCore_ne_extract (by rw [weight_concat]; omega) h
        · have hle := concatCore_weight_le (extractCore m 0 (w - (l.width - o))) (extractCore l o (l.width - o))
          have hm := extractCore_weight_le m 0 (w - (l.width - o))
          have hl := extractCore_weight_le l o (l.width - o)
          rw [h] at hle
          simp only [weight_concat, weight_extract] at hle hm hl
          omega
    | extract inner o' w' =>
      refine ⟨fun h ↦ ?_, False.elim⟩
      have hpos := inner.weight_pos
      exact extractCore_ne_extract (by rw [weight_extract]; omega) h
    | zext inner n =>
      dsimp only [Opaque]
      split
      · rename_i hlow
        refine ⟨fun h ↦ ?_, fun h ↦ by omega⟩
        exact (extractCore_ne_extract (by rw [weight_zext]; omega) h).elim
      · split
        · exact ⟨nofun, fun h ↦ by omega⟩
        · exact ⟨fun _ ↦ by omega, fun _ ↦ rfl⟩
    | read u i | select c t f | sext x n | not x | binary op l r | compare op l r =>
      exact ⟨fun _ ↦ trivial, fun _ ↦ rfl⟩

theorem Opaque.join {w' : Nat} (hl : x.Opaque o w) (hm : x.Opaque (o + w) w') : x.Opaque o (w' + w) := by
  cases x with
  | zext inner n =>
    dsimp only [Opaque] at hl hm ⊢
    omega
  | _ => exact hl

theorem joinExtracts_settled {j : Expr} (hm : m.Settled) (hl : l.Settled) (h : joinExtracts m l = some j) :
    j.Settled := by
  unfold joinExtracts at h
  split at h
  · rename_i high highOffset highWidth low lowOffset lowWidth
    split at h
    · rename_i hadjacent
      obtain ⟨rfl, rfl⟩ := hadjacent
      obtain rfl := Option.some.inj h
      split
      · exact hl.2
      · rename_i hpart
        have hlow := extractCore_eq_extract_iff.1 hl.1
        have hhigh := extractCore_eq_extract_iff.1 hm.1
        exact ⟨extractCore_eq_extract_iff.2 ⟨hpart, hlow.2.join hhigh.2⟩, hl.2⟩
    · cases h
  · cases h

theorem concatCore_settled (hm : m.Settled) (hl : l.Settled) : (concatCore m l).Settled := by
  fun_induction concatCore m l with
  | case1 m im il j hj ih => exact ih (joinExtracts_settled hm hl.2.1 hj) hl.2.2
  | case2 m im il hj =>
    refine ⟨?_, hm, hl⟩
    rw [concatCore, hj]
  | case3 => exact settled_word ..
  | case4 m v w hv =>
    refine ⟨?_, hm, hl⟩
    rw [concatCore, hv]
  | case5 m l hconcat hconst =>
    cases hj : joinExtracts m l with
    | none =>
      refine ⟨?_, hm, hl⟩
      rw [concatCore.eq_def]
      split
      · exact (hconcat _ _ rfl).elim
      · exact (hconst _ _ rfl).elim
      · rw [hj, Option.getD_none]
    | some j => exact joinExtracts_settled hm hl hj

theorem extractCore_settled (h : e.Settled) : (extractCore e o w).Settled := by
  fun_induction extractCore e o w with
  | case1 e => exact h
  | case2 => exact settled_word ..
  | case3 o w m l _ _ ih => exact ih h.2.1
  | case4 o w m l _ _ _ ih => exact ih h.2.2
  | case5 o w m l _ _ low _ ihm ihl => exact concatCore_settled (ihm h.2.1) (ihl h.2.2)
  | case6 o w x _ _ _ ih => exact ih h.2
  | case7 o w x _ _ _ ih => exact ih h.2
  | case8 => exact settled_word ..
  | case9 o w x n hlow hhigh hpart =>
    refine ⟨extractCore_eq_extract_iff.2 ⟨hpart, ?_⟩, h⟩
    dsimp only [Opaque]
    omega
  | case10 e o w hpart hconst hconcat hextract hzext =>
    refine ⟨extractCore_eq_extract_iff.2 ⟨hpart, ?_⟩, h⟩
    unfold Opaque
    split
    · exact hconst _ _ rfl
    · exact hconcat _ _ rfl
    · exact hextract _ _ _ rfl
    · exact (hzext _ _ rfl).elim
    · trivial

theorem binaryCore_of_ordered {op : BinOp} (hconst : (l.isConst && r.isConst) = false)
    (hordered : (op.isCommutative && r.isConst) = false) : binaryCore op l r = binaryOrdered op l r := by
  rw [binaryCore_eq, hordered]
  split
  · rename_i x y hx hy
    rw [value?_eq_some] at hx hy
    rw [hx, hy] at hconst
    cases hconst
  · rfl

theorem binaryOrdered_settled {op : BinOp} (hconst : (l.isConst && r.isConst) = false)
    (hordered : (op.isCommutative && r.isConst) = false) (hl : l.Settled) (hr : r.Settled) :
    (binaryOrdered op l r).Settled := by
  obtain h | h | h | h := binaryOrdered_cases op l r
  · rwa [h]
  · rwa [h]
  · rw [h]
    exact settled_word ..
  · rw [h]
    exact ⟨(binaryCore_of_ordered hconst hordered).trans h, hl, hr⟩

theorem binaryCore_settled {op : BinOp} (hl : l.Settled) (hr : r.Settled) : (binaryCore op l r).Settled := by
  rw [binaryCore_eq]
  split
  · exact settled_word ..
  · rename_i hconst
    have hconst := not_both_const hconst
    split
    · rename_i hswap
      rw [Bool.and_eq_true] at hswap
      rw [hswap.2, Bool.and_true] at hconst
      exact binaryOrdered_settled (by rw [hconst, Bool.and_false]) (by rw [hconst, Bool.and_false]) hr hl
    · rename_i hordered
      exact binaryOrdered_settled hconst (Bool.eq_false_iff.2 hordered) hl hr

theorem mkNot_settled (h : e.Settled) : (mkNot e).Settled := by
  unfold mkNot
  split
  · exact settled_const ..
  · exact h.2
  · rename_i hconst hnot
    refine ⟨?_, h⟩
    unfold mkNot
    split
    · exact (hconst _ _ rfl).elim
    · exact (hnot _ rfl).elim
    · rfl

theorem mkZext_settled (h : e.Settled) (hr : mkZext e w = .ok r) : r.Settled := by
  have hsame := hr
  unfold mkZext at hr
  split at hr
  · obtain rfl := pure_eq_ok.1 hr
    exact h
  · split at hr
    · obtain ⟨-, rfl⟩ := mkExtract_eq_ok.1 hr
      exact extractCore_settled h
    · obtain ⟨-, -, hr⟩ := bind_eq_ok.1 hr
      split at hr
      · obtain rfl := pure_eq_ok.1 hr
        exact settled_word ..
      · obtain rfl := pure_eq_ok.1 hr
        exact ⟨hsame, h⟩

theorem mkSext_settled (h : e.Settled) (hr : mkSext e w = .ok r) : r.Settled := by
  have hsame := hr
  unfold mkSext at hr
  split at hr
  · obtain rfl := pure_eq_ok.1 hr
    exact h
  · split at hr
    · obtain ⟨-, rfl⟩ := mkExtract_eq_ok.1 hr
      exact extractCore_settled h
    · obtain ⟨-, -, hr⟩ := bind_eq_ok.1 hr
      split at hr
      · obtain rfl := pure_eq_ok.1 hr
        exact settled_const ..
      · obtain rfl := pure_eq_ok.1 hr
        exact ⟨hsame, h⟩

theorem mkExtract_settled (h : e.Settled) (hr : mkExtract e o w = .ok r) : r.Settled := by
  obtain ⟨-, rfl⟩ := mkExtract_eq_ok.1 hr
  exact extractCore_settled h

theorem mkBinary_settled {op : BinOp} (hl : l.Settled) (hr : r.Settled) (h : mkBinary op l r = .ok e) :
    e.Settled := by
  obtain ⟨-, rfl⟩ := mkBinary_eq_ok.1 h
  exact binaryCore_settled hl hr

theorem mkCompare_settled {op : CmpOp} (hl : l.Settled) (hr : r.Settled) (h : mkCompare op l r = .ok e) :
    e.Settled := by
  obtain ⟨-, rfl⟩ := mkCompare_eq_ok.1 h
  exact compareCore_settled hl hr

theorem foldlM_mkBinary_settled {op : BinOp} {es : List Expr} {acc : Expr} (hacc : acc.Settled)
    (hes : ∀ e ∈ es, e.Settled) (h : es.foldlM (mkBinary op) acc = .ok r) : r.Settled := by
  induction es generalizing acc with
  | nil =>
    obtain rfl := pure_eq_ok.1 h
    exact hacc
  | cons e es ih =>
    rw [List.foldlM_cons, bind_eq_ok] at h
    obtain ⟨acc', hacc', h⟩ := h
    rw [List.forall_mem_cons] at hes
    exact ih (mkBinary_settled hacc hes.1 hacc') hes.2 h

end Expr

namespace RawTerm

open Symex.Expr in
mutual

theorem build_settled {t : RawTerm} {e : Expr} (h : t.build = .ok e) : e.Settled := by
  match t with
  | constant v w =>
    obtain ⟨-, rfl⟩ := constant_eq_ok.1 h
    exact settled_word ..
  | bool b =>
    obtain rfl := pure_eq_ok.1 h
    exact settled_bool b
  | pointer v =>
    obtain rfl := pure_eq_ok.1 h
    exact settled_word v 64
  | read us i =>
    simp only [build, bind_eq_ok] at h
    obtain ⟨u, hu, i', hi, h⟩ := h
    obtain ⟨-, rfl⟩ := mkRead_eq_ok.1 h
    exact readCore_settled (buildWrites_settled hu) (build_settled hi)
  | select c t f =>
    simp only [build, bind_eq_ok] at h
    obtain ⟨c', hc, t', ht, f', hf, h⟩ := h
    obtain ⟨-, rfl⟩ := mkSelect_eq_ok.1 h
    exact selectCore_settled (build_settled hc) (build_settled ht) (build_settled hf)
  | concat m l =>
    simp only [build, bind_eq_ok] at h
    obtain ⟨m', hm, l', hl, h⟩ := h
    obtain ⟨-, rfl⟩ := mkConcat_eq_ok.1 h
    exact concatCore_settled (build_settled hm) (build_settled hl)
  | extract t offset w =>
    simp only [build, bind_eq_ok] at h
    obtain ⟨t', ht, h⟩ := h
    exact mkExtract_settled (build_settled ht) h
  | truncate t w =>
    simp only [build, bind_eq_ok] at h
    obtain ⟨t', ht, h⟩ := h
    exact mkExtract_settled (build_settled ht) h
  | zext t w =>
    simp only [build, bind_eq_ok] at h
    obtain ⟨t', ht, h⟩ := h
    exact mkZext_settled (build_settled ht) h
  | sext t w =>
    simp only [build, bind_eq_ok] at h
    obtain ⟨t', ht, h⟩ := h
    exact mkSext_settled (build_settled ht) h
  | not t =>
    simp only [build, bind_eq_ok, pure_eq_ok] at h
    obtain ⟨t', ht, rfl⟩ := h
    exact mkNot_settled (build_settled ht)
  | isZero t =>
    simp only [build, bind_eq_ok, pure_eq_ok] at h
    obtain ⟨t', ht, rfl⟩ := h
    exact isZero_settled (build_settled ht)
  | binary op l r =>
    simp only [build, bind_eq_ok] at h
    obtain ⟨l', hl, r', hr, h⟩ := h
    exact mkBinary_settled (build_settled hl) (build_settled hr) h
  | compare op l r =>
    simp only [build, bind_eq_ok] at h
    obtain ⟨l', hl, r', hr, h⟩ := h
    exact mkCompare_settled (build_settled hl) (build_settled hr) h
  | ne l r =>
    simp only [build, bind_eq_ok, mkNe, pure_eq_ok] at h
    obtain ⟨l', hl, r', hr, c, hc, rfl⟩ := h
    exact isZero_settled (mkCompare_settled (build_settled hl) (build_settled hr) hc)
  | ugt l r | uge l r | sgt l r | sge l r =>
    simp only [build, bind_eq_ok] at h
    obtain ⟨l', hl, r', hr, h⟩ := h
    exact mkCompare_settled (build_settled hr) (build_settled hl) h
  | all ts =>
    simp only [build, bind_eq_ok] at h
    obtain ⟨es, hes, h⟩ := h
    exact foldlM_mkBinary_settled (settled_bool true) (buildAll_settled hes) h
  | any ts =>
    simp only [build, bind_eq_ok] at h
    obtain ⟨es, hes, h⟩ := h
    exact foldlM_mkBinary_settled (settled_bool false) (buildAll_settled hes) h

theorem buildWrites_settled {us : RawWrites} {u : Updates} (h : buildWrites us = .ok u) : u.Settled := by
  match us with
  | .base array =>
    obtain rfl := pure_eq_ok.1 h
    trivial
  | .write i x older =>
    simp only [buildWrites, bind_eq_ok] at h
    obtain ⟨u', hu, i', hi, x', hx, h⟩ := h
    obtain ⟨-, rfl⟩ := Updates.extend_eq_ok.1 h
    exact ⟨build_settled hi, build_settled hx, buildWrites_settled hu⟩

theorem buildAll_settled {ts : List RawTerm} {es : List Expr} (h : buildAll ts = .ok es) :
    ∀ e ∈ es, e.Settled := by
  match ts with
  | [] =>
    obtain rfl := pure_eq_ok.1 h
    exact nofun
  | t :: ts =>
    simp only [buildAll, bind_eq_ok, pure_eq_ok] at h
    obtain ⟨e, he, es, hes, rfl⟩ := h
    exact List.forall_mem_cons.2 ⟨build_settled he, buildAll_settled hes⟩

end

end RawTerm

end Symex
