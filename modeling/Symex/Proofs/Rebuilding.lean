import Symex.Proofs.Arrays

namespace Symex

/-- The expression `e'` can be used in the place of `e` under every assignment in `H`. If it has to be
`frugal` then it is no larger than `e` and reads no other arrays. -/
structure RefinesOn (H : Assignment → Prop) (e e' : Expr) (frugal : Prop := True) : Prop where
  wellFormed : e'.WellFormed
  width_eq : e'.width = e.width
  weight_le : frugal → e'.weight ≤ e.weight
  readsIn : frugal → ∀ {S : NamedArray → Prop}, e.ReadsIn S → e'.ReadsIn S
  eval_eq : ∀ {a : Assignment}, H a → ∀ {v : Nat}, a.eval e = some v → a.eval e' = some v

variable {H : Assignment → Prop} {frugal : Prop}

theorem RefinesOn.refl {e : Expr} (h : e.WellFormed) : RefinesOn H e e frugal :=
  ⟨h, rfl, fun _ ↦ Nat.le_refl _, fun _ _ ↦ id, fun _ ↦ id⟩

theorem RefinesOn.trans {e e' e'' : Expr} (h : RefinesOn H e e' frugal)
    (h' : RefinesOn H e' e'' frugal) : RefinesOn H e e'' frugal :=
  ⟨h'.wellFormed, h'.width_eq.trans h.width_eq,
    fun hf ↦ Nat.le_trans (h'.weight_le hf) (h.weight_le hf),
    fun hf _ hS ↦ h'.readsIn hf (h.readsIn hf hS), fun ha _ hv ↦ h'.eval_eq ha (h.eval_eq ha hv)⟩

theorem RefinesOn.of_forall {e e' : Expr} (h : ∀ a, Refines a e e') (hw : e'.weight ≤ e.weight)
    (hr : ∀ {S : NamedArray → Prop}, e.ReadsIn S → e'.ReadsIn S) : RefinesOn H e e' frugal :=
  ⟨(h ⟨true, {}⟩).wellFormed, (h ⟨true, {}⟩).width_eq, fun _ ↦ hw, fun _ ↦ hr,
    fun _ ↦ (h _).eval_eq⟩

/-- The same of writes. -/
structure Updates.RefinesOn (H : Assignment → Prop) (u u' : Updates) (frugal : Prop := True) : Prop where
  wellFormed : u'.WellFormed
  weight_le : frugal → u'.weight ≤ u.weight
  readsIn : frugal → ∀ {S : NamedArray → Prop}, u.ReadsIn S → u'.ReadsIn S
  evalRead_eq : ∀ {a : Assignment}, H a → ∀ {n v : Nat}, a.evalRead u n = some v →
    a.evalRead u' n = some v

namespace RefinesOn

theorem read {u u' : Updates} {i i' : Expr} (h : (Expr.read u i).WellFormed)
    (hu : u.RefinesOn H u' frugal) (hi : RefinesOn H i i' frugal) :
    RefinesOn H (.read u i) (.read u' i') frugal := by
  simp only [Expr.WellFormed] at h
  refine ⟨?_, rfl, ?_, fun hfrugal {_} hS ↦ ?_, fun {_} ha {_} hv ↦ ?_⟩
  · simp only [Expr.WellFormed, hi.width_eq]
    exact ⟨hu.wellFormed, hi.wellFormed, h.2.2⟩
  · intro hfrugal
    have h1 := hu.weight_le hfrugal
    have h2 := hi.weight_le hfrugal
    simp only [Expr.weight_read]
    omega
  · simp only [Expr.ReadsIn] at hS ⊢
    exact ⟨hu.readsIn hfrugal hS.1, hi.readsIn hfrugal hS.2⟩
  · obtain ⟨n, hn, hv⟩ := Assignment.eval_read.1 hv
    exact Assignment.eval_read.2 ⟨n, hi.eval_eq ha hn, hu.evalRead_eq ha hv⟩

theorem select {c c' t t' f f' : Expr} (h : (Expr.select c t f).WellFormed)
    (hc : RefinesOn H c c' frugal) (ht : RefinesOn H t t' frugal) (hf : RefinesOn H f f' frugal) :
    RefinesOn H (.select c t f) (.select c' t' f') frugal := by
  simp only [Expr.WellFormed] at h
  refine ⟨?_, ht.width_eq, ?_, fun hfrugal {_} hS ↦ ?_, fun {_} ha {_} hv ↦ ?_⟩
  · simp only [Expr.WellFormed, hc.width_eq, ht.width_eq, hf.width_eq]
    exact ⟨hc.wellFormed, ht.wellFormed, hf.wellFormed, h.2.2.2⟩
  · intro hfrugal
    have h1 := hc.weight_le hfrugal
    have h2 := ht.weight_le hfrugal
    have h3 := hf.weight_le hfrugal
    simp only [Expr.weight_select]
    omega
  · simp only [Expr.ReadsIn] at hS ⊢
    exact ⟨hc.readsIn hfrugal hS.1, ht.readsIn hfrugal hS.2.1, hf.readsIn hfrugal hS.2.2⟩
  · obtain ⟨n, hn, hv⟩ := Assignment.eval_select.1 hv
    refine Assignment.eval_select.2 ⟨n, hc.eval_eq ha hn, ?_⟩
    split at hv
    · rw [if_pos ‹_›]
      exact hf.eval_eq ha hv
    · rw [if_neg ‹_›]
      exact ht.eval_eq ha hv

theorem concat {m m' l l' : Expr} (h : (Expr.concat m l).WellFormed) (hm : RefinesOn H m m' frugal)
    (hl : RefinesOn H l l' frugal) : RefinesOn H (.concat m l) (.concat m' l') frugal := by
  simp only [Expr.WellFormed] at h
  refine ⟨?_, ?_, ?_, fun hfrugal {_} hS ↦ ?_, fun {_} ha {_} hv ↦ ?_⟩
  · simp only [Expr.WellFormed, hm.width_eq, hl.width_eq]
    exact ⟨hm.wellFormed, hl.wellFormed, h.2.2⟩
  · rw [Expr.width_concat, Expr.width_concat, hm.width_eq, hl.width_eq]
  · intro hfrugal
    have h1 := hm.weight_le hfrugal
    have h2 := hl.weight_le hfrugal
    simp only [Expr.weight_concat]
    omega
  · simp only [Expr.ReadsIn] at hS ⊢
    exact ⟨hm.readsIn hfrugal hS.1, hl.readsIn hfrugal hS.2⟩
  · obtain ⟨x, y, hx, hy, rfl⟩ := Assignment.eval_concat.1 hv
    exact Assignment.eval_concat.2 ⟨x, y, hm.eval_eq ha hx, hl.eval_eq ha hy, by rw [hl.width_eq]⟩

theorem extract {x x' : Expr} {o w : Nat} (h : (Expr.extract x o w).WellFormed)
    (hx : RefinesOn H x x' frugal) : RefinesOn H (.extract x o w) (.extract x' o w) frugal := by
  simp only [Expr.WellFormed] at h
  refine ⟨?_, rfl, ?_, fun hfrugal {_} hS ↦ ?_, fun {_} ha {_} hv ↦ ?_⟩
  · simp only [Expr.WellFormed, hx.width_eq]
    exact ⟨hx.wellFormed, h.2⟩
  · intro hfrugal
    have h1 := hx.weight_le hfrugal
    simp only [Expr.weight_extract]
    omega
  · simp only [Expr.ReadsIn] at hS ⊢
    exact hx.readsIn hfrugal hS
  · obtain ⟨n, hn, rfl⟩ := Assignment.eval_extract.1 hv
    exact Assignment.eval_extract.2 ⟨n, hx.eval_eq ha hn, rfl⟩

theorem zext {x x' : Expr} {w : Nat} (h : (Expr.zext x w).WellFormed)
    (hx : RefinesOn H x x' frugal) : RefinesOn H (.zext x w) (.zext x' w) frugal := by
  simp only [Expr.WellFormed] at h
  refine ⟨?_, rfl, ?_, fun hfrugal {_} hS ↦ ?_, fun {_} ha {_} hv ↦ ?_⟩
  · simp only [Expr.WellFormed, hx.width_eq]
    exact ⟨hx.wellFormed, h.2⟩
  · intro hfrugal
    have h1 := hx.weight_le hfrugal
    simp only [Expr.weight_zext]
    omega
  · simp only [Expr.ReadsIn] at hS ⊢
    exact hx.readsIn hfrugal hS
  · rw [Assignment.eval_zext] at hv ⊢
    exact hx.eval_eq ha hv

theorem sext {x x' : Expr} {w : Nat} (h : (Expr.sext x w).WellFormed)
    (hx : RefinesOn H x x' frugal) : RefinesOn H (.sext x w) (.sext x' w) frugal := by
  simp only [Expr.WellFormed] at h
  refine ⟨?_, rfl, ?_, fun hfrugal {_} hS ↦ ?_, fun {_} ha {_} hv ↦ ?_⟩
  · simp only [Expr.WellFormed, hx.width_eq]
    exact ⟨hx.wellFormed, h.2⟩
  · intro hfrugal
    have h1 := hx.weight_le hfrugal
    simp only [Expr.weight_sext]
    omega
  · simp only [Expr.ReadsIn] at hS ⊢
    exact hx.readsIn hfrugal hS
  · obtain ⟨n, hn, rfl⟩ := Assignment.eval_sext.1 hv
    exact Assignment.eval_sext.2 ⟨n, hx.eval_eq ha hn, by rw [hx.width_eq]⟩

theorem not {x x' : Expr} (hx : RefinesOn H x x' frugal) : RefinesOn H (.not x) (.not x') frugal := by
  refine ⟨?_, hx.width_eq, ?_, fun hfrugal {_} hS ↦ ?_, fun {_} ha {_} hv ↦ ?_⟩
  · simp only [Expr.WellFormed]
    exact hx.wellFormed
  · intro hfrugal
    have h1 := hx.weight_le hfrugal
    simp only [Expr.weight_not]
    omega
  · simp only [Expr.ReadsIn] at hS ⊢
    exact hx.readsIn hfrugal hS
  · obtain ⟨n, hn, rfl⟩ := Assignment.eval_not.1 hv
    exact Assignment.eval_not.2 ⟨n, hx.eval_eq ha hn, by rw [hx.width_eq]⟩

theorem binary {op : BinOp} {l l' r r' : Expr} (h : (Expr.binary op l r).WellFormed)
    (hl : RefinesOn H l l' frugal) (hr : RefinesOn H r r' frugal) :
    RefinesOn H (.binary op l r) (.binary op l' r') frugal := by
  simp only [Expr.WellFormed] at h
  refine ⟨?_, hl.width_eq, ?_, fun hfrugal {_} hS ↦ ?_, fun {_} ha {_} hv ↦ ?_⟩
  · simp only [Expr.WellFormed, hl.width_eq, hr.width_eq]
    exact ⟨hl.wellFormed, hr.wellFormed, h.2.2⟩
  · intro hfrugal
    have h1 := hl.weight_le hfrugal
    have h2 := hr.weight_le hfrugal
    simp only [Expr.weight_binary]
    omega
  · simp only [Expr.ReadsIn] at hS ⊢
    exact ⟨hl.readsIn hfrugal hS.1, hr.readsIn hfrugal hS.2⟩
  · obtain ⟨x, y, hx, hy, rfl⟩ := Assignment.eval_binary.1 hv
    exact Assignment.eval_binary.2 ⟨x, y, hl.eval_eq ha hx, hr.eval_eq ha hy, by rw [hl.width_eq]⟩

theorem compare {op : CmpOp} {l l' r r' : Expr} (h : (Expr.compare op l r).WellFormed)
    (hl : RefinesOn H l l' frugal) (hr : RefinesOn H r r' frugal) :
    RefinesOn H (.compare op l r) (.compare op l' r') frugal := by
  simp only [Expr.WellFormed] at h
  refine ⟨?_, rfl, ?_, fun hfrugal {_} hS ↦ ?_, fun {_} ha {_} hv ↦ ?_⟩
  · simp only [Expr.WellFormed, hl.width_eq, hr.width_eq]
    exact ⟨hl.wellFormed, hr.wellFormed, h.2.2⟩
  · intro hfrugal
    have h1 := hl.weight_le hfrugal
    have h2 := hr.weight_le hfrugal
    simp only [Expr.weight_compare]
    omega
  · simp only [Expr.ReadsIn] at hS ⊢
    exact ⟨hl.readsIn hfrugal hS.1, hr.readsIn hfrugal hS.2⟩
  · obtain ⟨x, y, hx, hy, rfl⟩ := Assignment.eval_compare.1 hv
    exact Assignment.eval_compare.2 ⟨x, y, hl.eval_eq ha hx, hr.eval_eq ha hy, by rw [hl.width_eq]⟩

end RefinesOn

namespace Expr

theorem exists_mkRead {u : Updates} {i : Expr} (h : (Expr.read u i).WellFormed) :
    ∃ e, mkRead u i = .ok e ∧ RefinesOn H (.read u i) e frugal := by
  have hw := h
  simp only [WellFormed] at hw
  exact ⟨_, mkRead_eq_ok.2 ⟨hw.2.2, rfl⟩,
    .of_forall (fun _ ↦ readCore_refines h) (readCore_weight_le u i) readCore_readsIn⟩

theorem exists_mkSelect {c t f : Expr} (h : (Expr.select c t f).WellFormed) :
    ∃ e, mkSelect c t f = .ok e ∧ RefinesOn H (.select c t f) e frugal := by
  have hw := h
  simp only [WellFormed] at hw
  refine ⟨_, mkSelect_eq_ok.2 ⟨hw.2.2.2, rfl⟩,
    .of_forall (fun _ ↦ selectCore_refines h) (selectCore_weight_le c t f) fun hS ↦ ?_⟩
  simp only [ReadsIn] at hS
  exact selectCore_readsIn hS.1 hS.2.1 hS.2.2

theorem exists_mkConcat {m l : Expr} (h : (Expr.concat m l).WellFormed) :
    ∃ e, mkConcat m l = .ok e ∧ RefinesOn H (.concat m l) e frugal := by
  have hw := h
  simp only [WellFormed] at hw
  refine ⟨_, mkConcat_eq_ok.2 ⟨hw.2.2, rfl⟩,
    .of_forall (fun _ ↦ concatCore_refines h) (concatCore_weight_le m l) fun hS ↦ ?_⟩
  simp only [ReadsIn] at hS
  exact concatCore_readsIn hS.1 hS.2

theorem exists_mkExtract {x : Expr} {o w : Nat} (h : (Expr.extract x o w).WellFormed) :
    ∃ e, mkExtract x o w = .ok e ∧ RefinesOn H (.extract x o w) e frugal := by
  have hw := h
  simp only [WellFormed] at hw
  refine ⟨_, mkExtract_eq_ok.2 ⟨hw.2, rfl⟩,
    .of_forall (fun _ ↦ extractCore_refines h) (extractCore_weight_le x o w) fun hS ↦ ?_⟩
  simp only [ReadsIn] at hS
  exact extractCore_readsIn hS

theorem exists_mkZext_refinesOn {x : Expr} {w : Nat} (h : (Expr.zext x w).WellFormed) :
    ∃ e, mkZext x w = .ok e ∧ RefinesOn H (.zext x w) e frugal := by
  obtain ⟨e, he⟩ := exists_mkZext h
  refine ⟨e, he, .of_forall (fun _ ↦ zext_refines h he) (mkZext_weight_le h he) fun hS ↦ ?_⟩
  simp only [ReadsIn] at hS
  exact mkZext_readsIn hS he

theorem exists_mkSext_refinesOn {x : Expr} {w : Nat} (h : (Expr.sext x w).WellFormed) :
    ∃ e, mkSext x w = .ok e ∧ RefinesOn H (.sext x w) e frugal := by
  obtain ⟨e, he⟩ := exists_mkSext h
  refine ⟨e, he, .of_forall (fun _ ↦ sext_refines h he) (mkSext_weight_le h he) fun hS ↦ ?_⟩
  simp only [ReadsIn] at hS
  exact mkSext_readsIn hS he

theorem exists_mkBinary {op : BinOp} {l r : Expr} (h : (Expr.binary op l r).WellFormed) :
    ∃ e, mkBinary op l r = .ok e ∧ RefinesOn H (.binary op l r) e frugal := by
  have hw := h
  simp only [WellFormed] at hw
  refine ⟨_, mkBinary_eq_ok.2 ⟨hw.2.2, rfl⟩,
    .of_forall (fun _ ↦ binaryCore_refines h) (binaryCore_weight_le op l r) fun hS ↦ ?_⟩
  simp only [ReadsIn] at hS
  exact binaryCore_readsIn hS.1 hS.2

theorem exists_mkCompare {op : CmpOp} {l r : Expr} (h : (Expr.compare op l r).WellFormed) :
    ∃ e, mkCompare op l r = .ok e ∧ RefinesOn H (.compare op l r) e frugal := by
  have hw := h
  simp only [WellFormed] at hw
  refine ⟨_, mkCompare_eq_ok.2 ⟨hw.2.2, rfl⟩,
    .of_forall (fun _ ↦ compareCore_refines h) (compareCore_weight_le op l r) fun hS ↦ ?_⟩
  simp only [ReadsIn] at hS
  exact compareCore_readsIn hS.1 hS.2

end Expr

namespace Rebuilding

/-- Neither what stands in for whole terms nor what is done to finished ones matters under the
assignments in `H`. -/
structure Sound (H : Assignment → Prop) (w : Rebuilding) (frugal : Prop := True) : Prop where
  before : ∀ {e r : Expr}, e.WellFormed → w.before e = some r → RefinesOn H e r frugal
  after : ∀ {e : Expr}, e.WellFormed → RefinesOn H e (w.after e) frugal

variable {w : Rebuilding}

theorem Sound.node {e e₁ : Expr} {m : Checked Expr} {p : Prop} [Decidable p] (hw : w.Sound H frugal)
    (he : e.WellFormed) (hparts : RefinesOn H e e₁ frugal)
    (hm : ∃ e', m = .ok e' ∧ RefinesOn H e₁ e' frugal) :
    ∃ r, (do return w.after (← if p then pure e else m) : Checked Expr) = .ok r ∧
      RefinesOn H e r frugal := by
  obtain ⟨e', rfl, hm⟩ := hm
  split
  · exact ⟨w.after e, rfl, hw.after he⟩
  · exact ⟨w.after e', rfl, (hparts.trans hm).trans (hw.after hm.wellFormed)⟩

mutual

theorem Sound.apply (hw : w.Sound H frugal) {e : Expr} (he : e.WellFormed) :
    ∃ r, w.apply e = .ok r ∧ RefinesOn H e r frugal := by
  unfold Rebuilding.apply
  split
  · exact ⟨_, rfl, hw.before he ‹_›⟩
  · match e with
    | .const v n => exact ⟨_, rfl, .refl he⟩
    | .read u i =>
      have hparts := he
      simp only [Expr.WellFormed] at hparts
      obtain ⟨i', hi', hi⟩ := hw.apply hparts.2.1
      obtain ⟨u', hu', hu⟩ := hw.applyUpdates hparts.1
      simp only [hi', hu', Checked.ok_bind]
      have hn := RefinesOn.read he hu hi
      exact hw.node he hn (Expr.exists_mkRead hn.wellFormed)
    | .select c t f =>
      have hparts := he
      simp only [Expr.WellFormed] at hparts
      obtain ⟨c', hc', hc⟩ := hw.apply hparts.1
      obtain ⟨t', ht', ht⟩ := hw.apply hparts.2.1
      obtain ⟨f', hf', hf⟩ := hw.apply hparts.2.2.1
      simp only [hc', ht', hf', Checked.ok_bind]
      have hn := RefinesOn.select he hc ht hf
      exact hw.node he hn (Expr.exists_mkSelect hn.wellFormed)
    | .concat m l =>
      have hparts := he
      simp only [Expr.WellFormed] at hparts
      obtain ⟨m', hm', hm⟩ := hw.apply hparts.1
      obtain ⟨l', hl', hl⟩ := hw.apply hparts.2.1
      simp only [hm', hl', Checked.ok_bind]
      have hn := RefinesOn.concat he hm hl
      exact hw.node he hn (Expr.exists_mkConcat hn.wellFormed)
    | .extract x o n =>
      have hparts := he
      simp only [Expr.WellFormed] at hparts
      obtain ⟨x', hx', hx⟩ := hw.apply hparts.1
      simp only [hx', Checked.ok_bind]
      have hn := RefinesOn.extract he hx
      exact hw.node he hn (Expr.exists_mkExtract hn.wellFormed)
    | .zext x n =>
      have hparts := he
      simp only [Expr.WellFormed] at hparts
      obtain ⟨x', hx', hx⟩ := hw.apply hparts.1
      simp only [hx', Checked.ok_bind]
      have hn := RefinesOn.zext he hx
      exact hw.node he hn (Expr.exists_mkZext_refinesOn hn.wellFormed)
    | .sext x n =>
      have hparts := he
      simp only [Expr.WellFormed] at hparts
      obtain ⟨x', hx', hx⟩ := hw.apply hparts.1
      simp only [hx', Checked.ok_bind]
      have hn := RefinesOn.sext he hx
      exact hw.node he hn (Expr.exists_mkSext_refinesOn hn.wellFormed)
    | .not x =>
      have hparts := he
      simp only [Expr.WellFormed] at hparts
      obtain ⟨x', hx', hx⟩ := hw.apply hparts
      simp only [hx', Checked.ok_bind]
      refine ⟨_, rfl, ?_⟩
      split
      · exact hw.after he
      · have hm : RefinesOn H (.not x') (Expr.mkNot x') frugal := by
          refine .of_forall (fun _ ↦ Expr.mkNot_refines hx.wellFormed) (Expr.mkNot_weight_le x')
            fun hS ↦ ?_
          simp only [Expr.ReadsIn] at hS
          exact Expr.mkNot_readsIn hS
        exact (hx.not.trans hm).trans (hw.after hm.wellFormed)
    | .binary op l r =>
      have hparts := he
      simp only [Expr.WellFormed] at hparts
      obtain ⟨l', hl', hl⟩ := hw.apply hparts.1
      obtain ⟨r', hr', hr⟩ := hw.apply hparts.2.1
      simp only [hl', hr', Checked.ok_bind]
      have hn := RefinesOn.binary he hl hr
      exact hw.node he hn (Expr.exists_mkBinary hn.wellFormed)
    | .compare op l r =>
      have hparts := he
      simp only [Expr.WellFormed] at hparts
      obtain ⟨l', hl', hl⟩ := hw.apply hparts.1
      obtain ⟨r', hr', hr⟩ := hw.apply hparts.2.1
      simp only [hl', hr', Checked.ok_bind]
      have hn := RefinesOn.compare he hl hr
      exact hw.node he hn (Expr.exists_mkCompare hn.wellFormed)

theorem Sound.applyUpdates (hw : w.Sound H frugal) {u : Updates} (hu : u.WellFormed) :
    ∃ u', w.applyUpdates u = .ok u' ∧ u.RefinesOn H u' frugal := by
  unfold Rebuilding.applyUpdates
  match u with
  | .base array => exact ⟨_, rfl, hu, fun _ ↦ Nat.le_refl _, fun _ _ ↦ id, fun _ ↦ id⟩
  | .write i x older =>
    have hparts := hu
    simp only [Updates.WellFormed] at hparts
    obtain ⟨i', hi', hi⟩ := hw.apply hparts.1
    obtain ⟨x', hx', hx⟩ := hw.apply hparts.2.1
    obtain ⟨older', ho', ho⟩ := hw.applyUpdates hparts.2.2.1
    simp only [hi', hx', ho', Checked.ok_bind]
    have hiw := hi.width_eq.trans hparts.2.2.2.1
    have hxw := hx.width_eq.trans hparts.2.2.2.2
    refine ⟨_, Updates.extend_eq_ok.2 ⟨⟨hiw, hxw⟩, rfl⟩, ?_, ?_, fun hfrugal {_} hS ↦ ?_,
      fun {_} ha {_ _} hv ↦ ?_⟩
    · simp only [Updates.WellFormed]
      exact ⟨hi.wellFormed, hx.wellFormed, ho.wellFormed, hiw, hxw⟩
    · intro hfrugal
      have h1 := hi.weight_le hfrugal
      have h2 := hx.weight_le hfrugal
      have h3 := ho.weight_le hfrugal
      simp only [Updates.weight_write]
      omega
    · simp only [Updates.ReadsIn] at hS ⊢
      exact ⟨hi.readsIn hfrugal hS.1, hx.readsIn hfrugal hS.2.1, ho.readsIn hfrugal hS.2.2⟩
    · obtain ⟨n, hn, hv⟩ := Assignment.evalRead_write.1 hv
      refine Assignment.evalRead_write.2 ⟨n, hi.eval_eq ha hn, ?_⟩
      split at hv
      · rw [if_pos ‹_›]
        exact hx.eval_eq ha hv
      · rw [if_neg ‹_›]
        exact ho.evalRead_eq ha hv

end

end Rebuilding

theorem Expr.exists_replace {s : Substitution} {e : Expr} (he : e.WellFormed)
    (hs : ∀ {k v : Expr}, k.WellFormed → s[k]? = some v → RefinesOn H k v frugal) :
    ∃ r, e.replace s = .ok r ∧ RefinesOn H e r frugal := by
  have hw : Rebuilding.Sound H { before := (s[·]?), after := id } frugal := ⟨hs, .refl⟩
  rw [replace, Rebuilding.run_eq_apply]
  exact hw.apply he

end Symex
