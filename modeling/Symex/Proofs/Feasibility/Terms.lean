import Symex.Executor.Step
import Symex.Proofs.Endings
import Symex.Proofs.Images

namespace Symex

open Bits

variable {α β : Type}

namespace Checked

/-- The computation does not end in a contradiction among constraints, and `P` holds of its result. -/
abbrev Safe (x : Checked α) (P : α → Prop) : Prop := Ends (· ≠ .infeasible) x P

variable {P : α → Prop} {Q : β → Prop} {x : Checked α}

theorem safe_demand {p : Prop} [Decidable p] {fault : Fault} (hf : fault ≠ .infeasible) :
    Safe (demand p fault) fun _ ↦ p :=
  ends_demand (fun _ ↦ hf) id

theorem safe_ofOption {o : Option α} (h : ∀ a, o = some a → P a) : Safe (ofOption o) P :=
  ends_ofOption (by decide) h

end Checked

open Checked

/-! ## Numbers -/

theorem Bits.safe_addChecked (x y : Nat) : Safe (addChecked x y) fun _ ↦ True := by
  unfold addChecked
  split
  · exact ends_pure trivial
  · exact ends_throw (by decide)

theorem Bits.safe_byteCountChecked (w : Nat) : Safe (byteCountChecked w) fun _ ↦ True :=
  ends_bind (safe_demand (by decide)) fun _ _ ↦ ends_pure trivial

theorem Bits.safe_toSignedChecked (v w : Nat) : Safe (toSignedChecked v w) fun _ ↦ True :=
  ends_bind (safe_demand (by decide)) fun _ _ ↦ ends_pure trivial

/-! ## Terms -/

namespace Expr

variable {e l r c t f m : Expr} {w : Nat}

theorem safe_constant (v w : Nat) : Safe (constant v w) fun e ↦ e.WellFormed ∧ e.width = w :=
  ends_bind (safe_demand (by decide)) fun _ hw ↦ ends_pure ⟨word_wellFormed v hw.1 hw.2, rfl⟩

theorem pointer_wellFormed (v : Nat) : (pointer v).WellFormed :=
  word_wellFormed v (by decide) (by decide)

theorem safe_mkBinary (op : BinOp) (hl : l.WellFormed) (hr : r.WellFormed) :
    Safe (mkBinary op l r) fun e ↦ e.WellFormed ∧ e.width = l.width := by
  refine ends_bind (safe_demand (by decide)) fun _ hw ↦ ends_pure ?_
  have href : Refines ⟨true, {}⟩ (.binary op l r) (binaryCore op l r) :=
    binaryCore_refines (binary_wellFormed hl hr hw)
  exact ⟨href.wellFormed, href.width_eq⟩

theorem safe_mkCompare (op : CmpOp) (hl : l.WellFormed) (hr : r.WellFormed) :
    Safe (mkCompare op l r) IsTruth := by
  refine ends_bind (safe_demand (by decide)) fun _ hw ↦ ends_pure ?_
  have href : Refines ⟨true, {}⟩ (.compare op l r) (compareCore op l r) :=
    compareCore_refines (compare_wellFormed hl hr hw)
  exact ⟨href.wellFormed, href.width_eq⟩

theorem safe_mkNe (hl : l.WellFormed) (hr : r.WellFormed) : Safe (mkNe l r) IsTruth :=
  ends_bind (safe_mkCompare .eq hl hr) fun _ h ↦ ends_pure h.isZero

theorem safe_mkSelect (hc : c.WellFormed) (ht : t.WellFormed) (hf : f.WellFormed) :
    Safe (mkSelect c t f) WellFormed := by
  refine ends_bind (safe_demand (by decide)) fun _ hw ↦ ends_pure ?_
  exact (selectCore_refines (a := ⟨true, {}⟩) (select_wellFormed hc ht hf hw)).wellFormed

theorem safe_mkConcat (hm : m.WellFormed) (hl : l.WellFormed) : Safe (mkConcat m l) WellFormed := by
  refine ends_bind (safe_demand (by decide)) fun _ hw ↦ ends_pure ?_
  exact (concatCore_refines (a := ⟨true, {}⟩) (concat_wellFormed hm hl hw)).wellFormed

theorem safe_mkExtract (o w : Nat) (he : e.WellFormed) :
    Safe (mkExtract e o w) fun e' ↦ e'.WellFormed ∧ e'.width = w := by
  refine ends_bind (safe_demand (by decide)) fun _ hw ↦ ends_pure ?_
  have href := extractCore_refines (a := ⟨true, {}⟩) (extract_wellFormed he hw)
  exact ⟨href.wellFormed, href.width_eq⟩

theorem safe_mkZext (w : Nat) (he : e.WellFormed) :
    Safe (mkZext e w) fun e' ↦ e'.WellFormed ∧ e'.width = w := by
  have hok : Ends (fun _ ↦ True) (mkZext e w) fun e' ↦ e'.WellFormed ∧ e'.width = w :=
    ends_true_iff.2 fun e' h ↦ have hover := mkZext_over he.over h; ⟨hover.1.wellFormed, hover.2⟩
  refine (Ends.and (P := fun _ ↦ True) ?_ hok).mono fun _ h ↦ h.2
  unfold mkZext
  split
  · exact ends_pure trivial
  · split
    · exact (safe_mkExtract 0 w he).mono fun _ _ ↦ trivial
    · refine ends_bind (safe_demand (by decide)) fun _ _ ↦ ?_
      split <;> exact ends_pure trivial

theorem safe_mkSext (w : Nat) (he : e.WellFormed) :
    Safe (mkSext e w) fun e' ↦ e'.WellFormed ∧ e'.width = w := by
  have hok : Ends (fun _ ↦ True) (mkSext e w) fun e' ↦ e'.WellFormed ∧ e'.width = w :=
    ends_true_iff.2 fun e' h ↦ have hover := mkSext_over he.over h; ⟨hover.1.wellFormed, hover.2⟩
  refine (Ends.and (P := fun _ ↦ True) ?_ hok).mono fun _ h ↦ h.2
  unfold mkSext
  split
  · exact ends_pure trivial
  · split
    · exact (safe_mkExtract 0 w he).mono fun _ _ ↦ trivial
    · refine ends_bind (safe_demand (by decide)) fun _ _ ↦ ?_
      split <;> exact ends_pure trivial

theorem WellFormed.isZero (he : e.WellFormed) : e.isZero.IsTruth :=
  have href := isZero_refines (a := ⟨true, {}⟩) he
  ⟨href.wellFormed, href.width_eq⟩

theorem safe_mkTruth (he : e.WellFormed) : Safe e.mkTruth IsTruth := by
  unfold mkTruth
  split
  · exact ends_pure ⟨he, ‹_›⟩
  · exact ends_bind (safe_constant 0 _) fun _ h ↦ safe_mkNe he h.1

theorem safe_build (p : IntPredicate) (hl : l.WellFormed) (hr : r.WellFormed) :
    Safe (p.build l r) IsTruth := by
  cases p with
  | eq => exact safe_mkCompare .eq hl hr
  | ne => exact safe_mkNe hl hr
  | ult => exact safe_mkCompare .ult hl hr
  | ule => exact safe_mkCompare .ule hl hr
  | slt => exact safe_mkCompare .slt hl hr
  | sle => exact safe_mkCompare .sle hl hr
  | ugt => exact safe_mkCompare .ult hr hl
  | uge => exact safe_mkCompare .ule hr hl
  | sgt => exact safe_mkCompare .slt hr hl
  | sge => exact safe_mkCompare .sle hr hl

theorem safe_mkRead {u : Updates} (hu : u.WellFormed) (he : e.WellFormed) :
    Safe (mkRead u e) WellFormed := by
  refine ends_bind (safe_demand (by decide)) fun _ hw ↦ ends_pure ?_
  have hwf : (Expr.read u e).WellFormed := by
    simp only [WellFormed]
    exact ⟨hu, he, hw⟩
  exact (readCore_refines (a := ⟨true, {}⟩) hwf).wellFormed

/-! ### Truth values -/

theorem IsTruth.val_lt {a : Assignment} (h : e.IsTruth) (ha : a.free) : a.val e < 2 := by
  simpa [h.2] using a.val_lt ha h.1

theorem safe_mkAnd (hl : l.IsTruth) (hr : r.IsTruth) : Safe (mkAnd l r) fun e ↦ e.IsTruth ∧
    ∀ a : Assignment, a.free → (a.val e ≠ 0 ↔ a.val l ≠ 0 ∧ a.val r ≠ 0) := by
  refine (Ends.and (safe_mkBinary .and hl.1 hr.1) (ends_true_iff.2 fun e he ↦ ?_)).mono
    fun e h ↦ ⟨⟨h.1.1, h.1.2.trans hl.2⟩, h.2⟩
  intro a ha
  have bit : ∀ x < 2, ∀ y < 2, BinOp.and.fold x y 1 ≠ 0 ↔ x ≠ 0 ∧ y ≠ 0 := by decide
  rw [val_mkBinary ha hl.1 hr.1 he, hl.2]
  exact bit _ (hl.val_lt ha) _ (hr.val_lt ha)

theorem safe_mkOr (hl : l.IsTruth) (hr : r.IsTruth) : Safe (mkOr l r) fun e ↦ e.IsTruth ∧
    ∀ a : Assignment, a.free → (a.val e ≠ 0 ↔ a.val l ≠ 0 ∨ a.val r ≠ 0) := by
  refine (Ends.and (safe_mkBinary .or hl.1 hr.1) (ends_true_iff.2 fun e he ↦ ?_)).mono
    fun e h ↦ ⟨⟨h.1.1, h.1.2.trans hl.2⟩, h.2⟩
  intro a ha
  have bit : ∀ x < 2, ∀ y < 2, BinOp.or.fold x y 1 ≠ 0 ↔ x ≠ 0 ∨ y ≠ 0 := by decide
  rw [val_mkBinary ha hl.1 hr.1 he, hl.2]
  exact bit _ (hl.val_lt ha) _ (hr.val_lt ha)

theorem safe_mkAll {es : List Expr} (hes : ∀ e ∈ es, e.IsTruth) : Safe (mkAll es) fun e ↦ e.IsTruth ∧
    ∀ a : Assignment, a.free → (∀ c ∈ es, a.val c ≠ 0) → a.val e ≠ 0 := by
  refine (ends_foldlM (P := fun e ↦ e.IsTruth ∧ ∀ a : Assignment, a.free → (∀ c ∈ es, a.val c ≠ 0) →
    a.val e ≠ 0) ⟨⟨bool_wellFormed true, rfl⟩, fun a _ _ ↦ by simp [bool]⟩ ?_)
  intro c hc e he
  refine (safe_mkAnd he.1 (hes c hc)).mono fun e' he' ↦ ⟨he'.1, fun a ha hall ↦ ?_⟩
  exact (he'.2 a ha).2 ⟨he.2 a ha hall, hall c hc⟩

theorem safe_mkEq (hl : l.WellFormed) (hr : r.WellFormed) : Safe (mkEq l r) fun e ↦ e.IsTruth ∧
    ∀ a : Assignment, a.free → (a.val e ≠ 0 ↔ a.val l = a.val r) := by
  refine Ends.and (safe_mkCompare .eq hl hr) (ends_true_iff.2 fun e he ↦ ?_)
  intro a ha
  have hw := (mkCompare_eq_ok.1 he).1
  have hltr := a.val_lt ha hr
  rw [← hw] at hltr
  rw [val_mkCompare ha hl hr he, CmpOp.fold, Bits.trunc_of_lt (a.val_lt ha hl), Bits.trunc_of_lt hltr]
  simp

end Expr

theorem Updates.safe_extend {u : Updates} {i e : Expr} (hu : u.WellFormed) (hi : i.WellFormed)
    (he : e.WellFormed) : Safe (u.extend i e) WellFormed := by
  refine ends_bind (safe_demand (by decide)) fun _ hw ↦ ends_pure ?_
  simp only [WellFormed]
  exact ⟨hi, he, hu, hw⟩

theorem Updates.safe_overlay {pick : Nat → Checked (Option Expr)} {n : Nat} {u : Updates} (hu : u.WellFormed)
    (hpick : ∀ i, Safe (pick i) fun o ↦ ∀ e, o = some e → e.WellFormed) :
    Safe (u.overlay pick n) WellFormed := by
  refine ends_foldlM hu fun i _ u hu ↦ ends_bind (hpick i) fun o ho ↦ ?_
  split
  · exact safe_extend hu (Expr.word_wellFormed _ (by decide) (by decide)) (ho _ rfl)
  · exact ends_pure hu

/-! ## Contents -/

namespace ObjectState

variable {x y : ObjectState} {e offset : Expr}

/-- The terms among the bytes, and the array below them, are well-formed. -/
structure WellFormed (x : ObjectState) : Prop where
  table : ∀ t, x.table = some t → ∀ e, some e ∈ t → e.WellFormed
  updates : ∀ u, x.updates? = some u → u.WellFormed

theorem wellFormed_of_no_terms (ht : x.table = none) (hu : x.updates? = none) : x.WellFormed where
  table t h := by
    rw [ht] at h
    cases h
  updates u h := by
    rw [hu] at h
    cases h

theorem WellFormed.of_marks (hx : x.WellFormed) (readOnly : Bool) (owner : Nat) :
    WellFormed { x with readOnly, owner } := ⟨hx.table, hx.updates⟩

theorem safe_entry {α : Type} (mask : Option (Array α)) (absent : α) (i : Nat) :
    Safe (entry mask absent i) fun b ↦ b = absent ∨ ∃ m, mask = some m ∧ b ∈ m := by
  unfold entry
  split
  · exact ends_pure (.inl rfl)
  · split
    · exact ends_pure (.inr ⟨_, rfl, Array.mem_of_getElem? ‹_›⟩)
    · exact ends_throw (by decide)

theorem safe_isConcrete (x : ObjectState) (i : Nat) : Safe (x.isConcrete i) fun _ ↦ True :=
  (safe_entry x.concreteMask true i).mono fun _ _ ↦ trivial

theorem safe_isFlushed (x : ObjectState) (i : Nat) : Safe (x.isFlushed i) fun _ ↦ True :=
  (safe_entry x.flushedMask false i).mono fun _ _ ↦ trivial

theorem safe_zeroed (object : MemoryObject) : Safe (zeroed object) WellFormed :=
  ends_bind (safe_demand (by decide)) fun _ _ ↦ ends_pure (wellFormed_of_no_terms rfl rfl)

theorem safe_withBytes (object : MemoryObject) (bytes : ByteArray) :
    Safe (withBytes object bytes) WellFormed :=
  ends_bind (safe_demand (by decide)) fun _ _ ↦ ends_pure (wellFormed_of_no_terms rfl rfl)

theorem safe_ofArray (object : MemoryObject) (array : NamedArray) :
    Safe (ofArray object array) WellFormed := by
  refine ends_bind (P := (·.table = none)) (ends_bind (safe_demand (by decide)) fun _ _ ↦ ends_pure rfl)
    fun x hx ↦ ends_pure ⟨fun t ht ↦ ?_, ?_⟩
  · rw [hx] at ht
    cases ht
  · rintro u ⟨⟩
    simp only [Updates.WellFormed]

section

variable (hx : x.WellFormed)
include hx

theorem WellFormed.safe_known? (i : Nat) : Safe (x.known? i) fun o ↦ ∀ e, o = some e → e.WellFormed := by
  refine (safe_entry x.table none i).mono ?_
  rintro _ (rfl | ⟨t, ht, hmem⟩) e he
  · cases he
  · exact hx.table t ht e (he ▸ hmem)

theorem WellFormed.safe_form (i : Nat) : Safe (x.form i) fun f ↦ ∀ e, f = .symbolic e → e.WellFormed := by
  refine ends_bind (x.safe_isConcrete i) fun _ _ ↦ ?_
  split
  · exact ends_pure (by simp)
  · refine ends_bind (x.safe_isFlushed i) fun _ _ ↦ ?_
    split
    · exact ends_pure (by simp)
    · refine ends_bind (hx.safe_known? i) fun o ho ↦ ?_
      split
      · refine ends_pure ?_
        rintro e ⟨⟩
        exact ho _ rfl
      · exact ends_pure (by simp)

theorem WellFormed.safe_writeByte (i : Nat) (b : UInt8) : Safe (x.writeByte i b) WellFormed := by
  unfold writeByte
  split
  · refine ends_pure ⟨fun t ht e he ↦ ?_, hx.updates⟩
    obtain ⟨t', ht', rfl⟩ := Option.map_eq_some_iff.1 ht
    exact hx.table t' ht' e ((Array.mem_or_eq_of_mem_setIfInBounds he).resolve_right nofun)
  · exact ends_throw (by decide)

theorem WellFormed.safe_writeSymbolicByte (i : Nat) (he : e.WellFormed) :
    Safe (x.writeSymbolicByte i e) WellFormed := by
  refine ends_bind (safe_demand (by decide)) fun _ _ ↦ ends_pure ⟨?_, hx.updates⟩
  rintro _ ⟨⟩ e' he'
  obtain hmem | heq := Array.mem_or_eq_of_mem_setIfInBounds he'
  · cases ht : x.table with
    | none => simp [ht] at hmem
    | some t =>
      rw [ht, Option.getD_some] at hmem
      exact hx.table t ht e' hmem
  · cases heq
    exact he

theorem WellFormed.safe_write8 (i : Nat) (he : e.WellFormed) : Safe (x.write8 i e) WellFormed := by
  unfold write8
  split
  · exact hx.safe_writeByte i _
  · exact hx.safe_writeSymbolicByte i he

omit hx in
theorem safe_newByte? (x : ObjectState) (i : Nat) : Safe (x.newByte? i) fun o ↦ ∀ e, o = some e → e.WellFormed := by
  refine ends_bind (x.safe_isFlushed i) fun _ _ ↦ ?_
  split
  · exact ends_pure (by simp)
  · refine ends_bind (x.safe_isConcrete i) fun _ _ ↦ ?_
    split
    · refine ends_pure ?_
      rintro _ ⟨⟩
      exact Expr.word_wellFormed _ (by decide) (by decide)
    · exact ends_pure (by simp)

theorem WellFormed.safe_newTerm? (i : Nat) : Safe (x.newTerm? i) fun o ↦ ∀ e, o = some e → e.WellFormed := by
  refine ends_bind (hx.safe_known? i) fun o ho ↦ ?_
  split
  · exact ends_pure (by simp)
  · refine ends_bind (x.safe_isFlushed i) fun _ _ ↦ ?_
    split
    · exact ends_pure (by simp)
    · exact ends_pure ho

theorem WellFormed.safe_flushedUpdates : Safe x.flushedUpdates Updates.WellFormed := by
  rw [flushedUpdates_eq]
  refine ends_bind (P := Updates.WellFormed) ?_ fun u hu ↦ ?_
  · unfold lowerLayer
    split
    · exact Updates.safe_overlay (hx.updates _ ‹_›) x.safe_newByte?
    · refine ends_pure ?_
      simp only [Updates.WellFormed]
  · split
    · exact Updates.safe_overlay hu hx.safe_newTerm?
    · exact ends_pure hu

theorem WellFormed.safe_readByte (i : Nat) : Safe (x.readByte i) Expr.WellFormed := by
  rw [readByte_eq]
  refine ends_bind (hx.safe_form i) fun f hf ↦ ?_
  have hindex : (Expr.word i 32).WellFormed := Expr.word_wellFormed i (by decide) (by decide)
  cases f with
  | concrete =>
    dsimp only
    split
    · exact ends_pure (Expr.word_wellFormed _ (by decide) (by decide))
    · exact ends_throw (by decide)
  | symbolic e => exact ends_pure (hf e rfl)
  | flushed =>
    dsimp only
    split
    · rename_i u hu
      exact Expr.safe_mkRead (hx.updates u hu) hindex
    · exact ends_bind hx.safe_flushedUpdates fun u hu ↦ Expr.safe_mkRead hu hindex

theorem WellFormed.safe_readByteAt (ho : offset.WellFormed) :
    Safe (x.readByteAt offset) Expr.WellFormed :=
  ends_bind (Expr.safe_mkZext 32 ho) fun _ hi ↦
    ends_bind hx.safe_flushedUpdates fun _ hu ↦ Expr.safe_mkRead hu hi.1

theorem WellFormed.safe_writeByteAt (ho : offset.WellFormed) (he : e.WellFormed) :
    Safe (x.writeByteAt offset e) WellFormed := by
  refine ends_bind hx.safe_flushedUpdates fun u hu ↦ ends_bind (Expr.safe_mkZext 32 ho) fun i hi ↦ ?_
  refine ends_bind (Updates.safe_extend hu hi.1 he) fun u' hu' ↦ ends_pure ?_
  refine ⟨nofun, ?_⟩
  rintro _ ⟨⟩
  exact hu'

omit hx in
theorem safe_place (ho : offset.WellFormed) (i : Nat) : Safe (place offset i) Expr.WellFormed :=
  ends_bind (Expr.safe_constant i _) fun _ hi ↦ (Expr.safe_mkBinary .add ho hi.1).mono fun _ h ↦ h.1

theorem WellFormed.safe_read (ho : offset.WellFormed) (w : Nat) :
    Safe (x.read offset w) Expr.WellFormed := by
  rw [read_eq]
  refine ends_bind (safe_demand (by decide)) fun _ _ ↦ ends_bind (Bits.safe_byteCountChecked w) fun n _ ↦ ?_
  refine ends_bind (P := fun low : Option Expr ↦ ∀ e, low = some e → e.WellFormed)
    (ends_foldlM (by simp) fun i _ low hlow ↦ ?_) fun low hlow ↦ ?_
  · refine ends_bind (P := Expr.WellFormed) ?_ fun byte hbyte ↦ ?_
    · unfold readByteAfter
      split
      · exact ends_bind (Bits.safe_addChecked _ _) fun n _ ↦ hx.safe_readByte n
      · exact ends_bind (safe_place ho i) fun o ho ↦ hx.safe_readByteAt ho
    · cases low with
      | none => exact ends_pure (by simpa using hbyte)
      | some low =>
        exact ends_bind (Expr.safe_mkConcat hbyte (hlow low rfl)) fun e he ↦ ends_pure (by simpa using he)
  · refine (Expr.safe_mkExtract 0 w ?_).mono fun _ h ↦ h.1
    cases low with
    | none => exact Expr.word_wellFormed _ (by decide) (by decide)
    | some low => exact hlow low rfl

theorem WellFormed.safe_write (ho : offset.WellFormed) (he : e.WellFormed) :
    Safe (x.write offset e) WellFormed := by
  rw [write_eq]
  refine ends_bind (P := Expr.WellFormed) ?_ fun e he ↦ ends_foldlM hx fun i _ y hy ↦ ?_
  · unfold wholeBytes
    split
    · exact ends_pure he
    · exact (Expr.safe_mkZext _ he).mono fun _ h ↦ h.1
  · refine ends_bind (Expr.safe_mkExtract _ _ he) fun byte hbyte ↦ ?_
    unfold writeAfter
    split
    · exact ends_bind (Bits.safe_addChecked _ _) fun n _ ↦ hy.safe_write8 n hbyte.1
    · exact ends_bind (safe_place ho i) fun o ho ↦ hy.safe_writeByteAt ho hbyte.1

end

end ObjectState

end Symex
