import Mathlib.Order.Defs.PartialOrder
import Symex.Proofs.Feasibility.States
import Symex.Proofs.Merging.Bytes

namespace Symex

open Checked

/-- The computation ends with a result as `P` says, or in some fault. -/
abbrev Checked.Meets {α : Type} (x : Checked α) (P : α → Prop) : Prop := Ends (fun _ ↦ True) x P

/-- Which assignments are taken to be alike. -/
structure Likeness where
  like : Assignment → Assignment → Prop
  free : ∀ {a b}, like a b → a.free = true ∧ b.free = true

namespace Likeness

/-- The finer likeness tells more assignments apart. -/
instance : Preorder Likeness where
  le L M := ∀ ⦃a b⦄, L.like a b → M.like a b
  le_refl _ _ _ := id
  le_trans _ _ _ h h' _ _ hab := h' (h hab)

end Likeness

namespace Expr

/-- The term has one value under assignments that are alike. -/
structure Determined (L : Likeness) (e : Expr) : Prop where
  wellFormed : e.WellFormed
  val_eq : ∀ {a b}, L.like a b → a.val e = b.val e

variable {L M : Likeness} {e l r c t f m i : Expr} {w : Nat}

theorem Determined.mono (h : e.Determined M) (hle : L ≤ M) : e.Determined L :=
  ⟨h.wellFormed, fun hab ↦ h.val_eq (hle hab)⟩

theorem determined_of_isConst (he : e.WellFormed) (hconst : e.isConst) : e.Determined L := by
  obtain ⟨n, hn⟩ := isConst_iff.1 hconst
  exact ⟨he, fun _ ↦ by rw [hn, Assignment.val_const, Assignment.val_const]⟩

@[simp] theorem determined_bool (b : Bool) : (bool b).Determined L :=
  determined_of_isConst (bool_wellFormed b) rfl

@[simp] theorem determined_pointer (v : Nat) : (pointer v).Determined L :=
  determined_of_isConst (pointer_wellFormed v) rfl

theorem determined_word (v : Nat) (h0 : 0 < w) (hw : w ≤ 64) : (word v w).Determined L :=
  determined_of_isConst (word_wellFormed v h0 hw) rfl

theorem meets_determined {x : Checked Expr} {P : Expr → Prop} (hsafe : Safe x fun e ↦ e.WellFormed ∧ P e)
    (hval : ∀ e a b, x = .ok e → L.like a b → a.val e = b.val e) : Meets x fun e ↦ e.Determined L ∧ P e :=
  ends_true_iff.2 fun e he ↦ ⟨⟨(hsafe.of_eq he).1, fun hab ↦ hval e _ _ he hab⟩, (hsafe.of_eq he).2⟩

theorem meets_constant (v w : Nat) : Meets (constant v w) fun e ↦ e.Determined L ∧ e.width = w :=
  meets_determined (safe_constant v w) fun e a b he _ ↦ by
    obtain ⟨_, -, he⟩ := bind_eq_ok.1 he
    obtain rfl := pure_eq_ok.1 he
    rw [Assignment.val_word, Assignment.val_word]

theorem Determined.mkBinary (op : BinOp) (hl : l.Determined L) (hr : r.Determined L) :
    Meets (mkBinary op l r) fun e ↦ e.Determined L ∧ e.width = l.width :=
  meets_determined (safe_mkBinary op hl.wellFormed hr.wellFormed) fun e a b he hab ↦ by
    rw [val_mkBinary (L.free hab).1 hl.wellFormed hr.wellFormed he,
      val_mkBinary (L.free hab).2 hl.wellFormed hr.wellFormed he, hl.val_eq hab, hr.val_eq hab]

theorem Determined.mkCompare (op : CmpOp) (hl : l.Determined L) (hr : r.Determined L) :
    Meets (mkCompare op l r) fun e ↦ e.Determined L ∧ e.width = 1 :=
  meets_determined (safe_mkCompare op hl.wellFormed hr.wellFormed) fun e a b he hab ↦ by
    rw [val_mkCompare (L.free hab).1 hl.wellFormed hr.wellFormed he,
      val_mkCompare (L.free hab).2 hl.wellFormed hr.wellFormed he, hl.val_eq hab, hr.val_eq hab]

theorem Determined.isZero (he : e.Determined L) : e.isZero.Determined L :=
  ⟨he.wellFormed.isZero.1, fun hab ↦ by
    rw [val_isZero (L.free hab).1 he.wellFormed, val_isZero (L.free hab).2 he.wellFormed, he.val_eq hab]⟩

theorem Determined.mkNe (hl : l.Determined L) (hr : r.Determined L) :
    Meets (mkNe l r) fun e ↦ e.Determined L ∧ e.width = 1 :=
  ends_bind (hl.mkCompare .eq hr) fun _ he ↦
    ends_pure ⟨he.1.isZero, (IsTruth.isZero ⟨he.1.wellFormed, he.2⟩).2⟩

theorem Determined.mkTruth (he : e.Determined L) : Meets e.mkTruth fun e ↦ e.Determined L ∧ e.width = 1 := by
  unfold Expr.mkTruth
  split
  · exact ends_pure ⟨he, ‹_›⟩
  · exact ends_bind (meets_constant 0 _) fun _ hzero ↦ he.mkNe hzero.1

theorem Determined.build (p : IntPredicate) (hl : l.Determined L) (hr : r.Determined L) :
    Meets (p.build l r) fun e ↦ e.Determined L ∧ e.width = 1 := by
  cases p with
  | eq => exact hl.mkCompare .eq hr
  | ne => exact hl.mkNe hr
  | ult => exact hl.mkCompare .ult hr
  | ule => exact hl.mkCompare .ule hr
  | slt => exact hl.mkCompare .slt hr
  | sle => exact hl.mkCompare .sle hr
  | ugt => exact hr.mkCompare .ult hl
  | uge => exact hr.mkCompare .ule hl
  | sgt => exact hr.mkCompare .slt hl
  | sge => exact hr.mkCompare .sle hl

theorem Determined.mkSelect (hc : c.Determined L) (ht : t.Determined L) (hf : f.Determined L) :
    Meets (mkSelect c t f) (Determined L) := by
  refine ends_true_iff.2 fun e he ↦ ⟨(safe_mkSelect hc.wellFormed ht.wellFormed hf.wellFormed).of_eq he, ?_⟩
  intro a b hab
  have hval {a : Assignment} (ha : a.free = true) : a.val e = if a.val c = 0 then a.val f else a.val t :=
    Picks.val_eq (.inr he) ha hc.wellFormed ht.wellFormed hf.wellFormed
  rw [hval (L.free hab).1, hval (L.free hab).2, hc.val_eq hab, ht.val_eq hab, hf.val_eq hab]

theorem Determined.mkConcat (hm : m.Determined L) (hl : l.Determined L) :
    Meets (mkConcat m l) (Determined L) :=
  ends_true_iff.2 fun e he ↦ ⟨(safe_mkConcat hm.wellFormed hl.wellFormed).of_eq he, fun hab ↦ by
    rw [val_mkConcat (L.free hab).1 hm.wellFormed hl.wellFormed he,
      val_mkConcat (L.free hab).2 hm.wellFormed hl.wellFormed he, hm.val_eq hab, hl.val_eq hab]⟩

theorem Determined.mkExtract (o w : Nat) (he : e.Determined L) :
    Meets (mkExtract e o w) fun e' ↦ e'.Determined L ∧ e'.width = w :=
  meets_determined (safe_mkExtract o w he.wellFormed) fun e' a b he' hab ↦ by
    rw [val_mkExtract (L.free hab).1 he.wellFormed he', val_mkExtract (L.free hab).2 he.wellFormed he',
      he.val_eq hab]

theorem Determined.mkZext (w : Nat) (he : e.Determined L) :
    Meets (mkZext e w) fun e' ↦ e'.Determined L ∧ e'.width = w :=
  meets_determined (safe_mkZext w he.wellFormed) fun e' a b he' hab ↦ by
    rw [val_mkZext (L.free hab).1 he.wellFormed he', val_mkZext (L.free hab).2 he.wellFormed he', he.val_eq hab]

theorem Determined.mkSext (w : Nat) (he : e.Determined L) :
    Meets (mkSext e w) fun e' ↦ e'.Determined L ∧ e'.width = w := by
  refine meets_determined (safe_mkSext w he.wellFormed) fun e' a b he' hab ↦ ?_
  have hle := width_le_of_mkSext he.wellFormed he'
  by_cases hw : w < e.width
  · rw [mkSext_of_lt hw] at he'
    rw [val_mkExtract (L.free hab).1 he.wellFormed he', val_mkExtract (L.free hab).2 he.wellFormed he',
      he.val_eq hab]
  · have hwf : (Expr.sext e w).WellFormed := by
      simp only [WellFormed]
      exact ⟨he.wellFormed, Nat.le_of_not_lt hw, hle⟩
    have hval {a : Assignment} (ha : a.free = true) :
        a.val (.sext e w) = Bits.ofSigned w (Bits.toSigned e.width (a.val e)) :=
      Assignment.val_eq (Assignment.eval_sext.2 ⟨_, Assignment.eval_eq_val ha e, rfl⟩)
    rw [(sext_refines hwf he').val_eq (L.free hab).1, (sext_refines hwf he').val_eq (L.free hab).2,
      hval (L.free hab).1, hval (L.free hab).2, he.val_eq hab]

theorem Determined.mkRead {u : Updates} (hu : u.WellFormed) (hi : i.Determined L)
    (hread : ∀ {a b}, L.like a b → a.rd u (a.val i) = b.rd u (a.val i)) :
    Meets (mkRead u i) (Determined L) :=
  ends_true_iff.2 fun e he ↦ ⟨(safe_mkRead hu hi.wellFormed).of_eq he, fun hab ↦ by
    rw [Updates.val_mkRead (L.free hab).1 hu hi.wellFormed he,
      Updates.val_mkRead (L.free hab).2 hu hi.wellFormed he, hread hab, hi.val_eq hab]⟩

theorem Determined.simplify {s : ConstraintSet} (hs : s.Valid) (he : e.Determined L)
    (hholds : ∀ {a b}, L.like a b → a.HoldsAll s.toList ∧ b.HoldsAll s.toList) :
    Meets (s.simplify e) (Determined L) := by
  obtain ⟨e', he', href⟩ := hs.exists_simplify he.wellFormed
  refine ends_of_eq he' ⟨href.wellFormed, fun {a b} hab ↦ ?_⟩
  have hval {a : Assignment} (ha : a.free = true) (hall : a.HoldsAll s.toList) : a.val e' = a.val e :=
    Inputs.Solves.val_eq (I := .all) ⟨ha, hall⟩ href
  rw [hval (L.free hab).1 (hholds hab).1, hval (L.free hab).2 (hholds hab).2, he.val_eq hab]

end Expr

end Symex
