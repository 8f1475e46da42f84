import Symex.State.Merge
import Symex.Proofs.Feasibility.States

namespace Symex

open Checked

namespace Expr

variable {c x y e : Expr}

/-- The term `e` stands for `x` where `c` holds and for `y` elsewhere. -/
def Picks (c x y e : Expr) : Prop := x = y ∧ e = x ∨ mkSelect c x y = .ok e

theorem Picks.wellFormed (h : Picks c x y e) (hc : c.WellFormed) (hx : x.WellFormed)
    (hy : y.WellFormed) : e.WellFormed := by
  obtain ⟨-, rfl⟩ | h := h
  · exact hx
  · exact (safe_mkSelect hc hx hy).of_eq h

theorem Picks.width_eq (h : Picks c x y e) (hc : c.WellFormed) (hx : x.WellFormed)
    (hy : y.WellFormed) : e.width = x.width ∧ x.width = y.width := by
  obtain ⟨rfl, rfl⟩ | h := h
  · exact ⟨rfl, rfl⟩
  · obtain ⟨hw, rfl⟩ := mkSelect_eq_ok.1 h
    exact ⟨(selectCore_refines (a := ⟨true, {}⟩) (select_wellFormed hc hx hy hw)).width_eq, hw.2⟩

theorem Picks.val_eq {a : Assignment} (h : Picks c x y e) (ha : a.free) (hc : c.WellFormed)
    (hx : x.WellFormed) (hy : y.WellFormed) :
    a.val e = if a.val c = 0 then a.val y else a.val x := by
  obtain ⟨rfl, rfl⟩ | h := h
  · rw [ite_self]
  · obtain ⟨hw, rfl⟩ := mkSelect_eq_ok.1 h
    have hselect : a.eval (.select c x y) = some (if a.val c = 0 then a.val y else a.val x) := by
      refine Assignment.eval_select.2 ⟨_, a.eval_eq_val ha c, ?_⟩
      split
      · exact a.eval_eq_val ha y
      · exact a.eval_eq_val ha x
    exact Assignment.val_eq ((selectCore_refines (select_wellFormed hc hx hy hw)).eval_eq hselect)

end Expr

namespace ObjectState

variable {x y z : ObjectState} {c e : Expr} {i : Nat}

/-- Contents whose terms are bytes, with a form for every one of them. -/
structure Formed (x : ObjectState) : Prop where
  masked : x.Masked
  symbolic : ∀ i e, x.form i = .ok (.symbolic e) → e.WellFormed ∧ e.width = 8
  updates : ∀ u, x.updates? = some u → u.WellFormed
  flushed : ∀ i, x.form i = .ok .flushed → x.updates?.isSome

theorem Proper.formed {S : NamedArray → Prop} (hx : x.Proper S) : x.Formed where
  masked := hx.masked
  symbolic i e he := ⟨(hx.symbolic i e he).1.wellFormed, (hx.symbolic i e he).2⟩
  updates u hu := (hx.updates u hu).wellFormed
  flushed := hx.flushed

theorem Formed.of_readByte (hx : x.Formed) (h : x.readByte i = .ok e) : e.WellFormed ∧ e.width = 8 := by
  rw [readByte_eq] at h
  obtain ⟨f, hf, h⟩ := bind_eq_ok.1 h
  cases f with
  | concrete =>
    dsimp only at h
    split at h
    · obtain rfl := pure_eq_ok.1 h
      exact ⟨Expr.word_wellFormed _ (by decide) (by decide), rfl⟩
    · cases h
  | symbolic e' =>
    obtain rfl := pure_eq_ok.1 h
    exact hx.symbolic i e' hf
  | flushed =>
    obtain ⟨u, hu⟩ := Option.isSome_iff_exists.1 (hx.flushed i hf)
    simp only [hu, pure_bind] at h
    obtain ⟨hw, rfl⟩ := Expr.mkRead_eq_ok.1 h
    have hread : (Expr.read u (.word i 32)).WellFormed := by
      simp only [Expr.WellFormed]
      exact ⟨hx.updates u hu, Expr.word_wellFormed _ (by decide) (by decide), hw⟩
    have href := Expr.readCore_refines (a := ⟨true, {}⟩) hread
    exact ⟨href.wellFormed, href.width_eq⟩

theorem Formed.exists_readByte (hx : x.Formed) (hi : i < x.size) : ∃ e, x.readByte i = .ok e := by
  obtain ⟨f, hf⟩ := hx.masked.exists_form hi
  rw [readByte_eq, hf, ok_bind]
  cases f with
  | concrete =>
    rw [getElem?_pos x.bytes i hi]
    exact ⟨_, rfl⟩
  | symbolic e => exact ⟨e, rfl⟩
  | flushed =>
    obtain ⟨u, hu⟩ := Option.isSome_iff_exists.1 (hx.flushed i hf)
    simp only [hu, pure_bind]
    exact ⟨_, Expr.mkRead_eq_ok.2 ⟨rfl, rfl⟩⟩

/-! ## Writes -/

theorem Updated.formed {f : ByteForm} (h : Updated x y i f) (hx : x.Formed) (hf : f ≠ .flushed)
    (hsym : ∀ e, f = .symbolic e → e.WellFormed ∧ e.width = 8) : y.Formed := by
  have hrange : ∀ {j g}, y.form j = .ok g → g ≠ .concrete → j < x.bytes.size := fun hg hne ↦
    h.size_eq ▸ h.masked.lt_of_form hg hne
  refine ⟨h.masked, ?_, fun u hu ↦ ?_, ?_⟩
  · intro j e he
    by_cases hj : j = i
    · rw [hj, h.form_self, Except.ok.injEq] at he
      exact hsym e he
    · rw [h.form_ne j (hrange he (by simp)) hj] at he
      exact hx.symbolic j e he
  · rw [h.updates_eq] at hu
    exact hx.updates u hu
  · intro j hj'
    by_cases hj : j = i
    · rw [hj, h.form_self, Except.ok.injEq] at hj'
      exact (hf hj').elim
    · rw [h.form_ne j (hrange hj' (by simp)) hj] at hj'
      rw [h.updates_eq]
      exact hx.flushed j hj'

/-- The contents `y` are `x` but for the byte at `i`, which is read as `e`. -/
structure Written (x y : ObjectState) (i : Nat) (e : Expr) : Prop where
  formed : y.Formed
  object_eq : y.object = x.object
  size_eq : y.size = x.size
  readByte_self : y.readByte i = .ok e
  readByte_ne : ∀ j < x.size, j ≠ i → y.readByte j = x.readByte j

theorem Formed.write8 (hx : x.Formed) (he : e.WellFormed) (hw : e.width = 8)
    (h : x.write8 i e = .ok y) : Written x y i e := by
  unfold ObjectState.write8 at h
  split at h
  · rename_i v hv
    obtain ⟨hup, hbyte⟩ := updated_of_writeByte hx.masked h
    refine ⟨hup.formed hx (by simp) (by simp), hup.object_eq, hup.size_eq, ?_,
      fun j hj ↦ hup.readByte_ne hx.flushed hj⟩
    rw [Expr.value?_eq_some, hw] at hv
    rw [hv] at he
    simp only [Expr.WellFormed] at he
    rw [readByte_eq, hup.form_self, ok_bind, hv]
    simp only [hbyte, UInt8.toNat_ofNat', Nat.toUInt8_eq]
    rw [Nat.mod_eq_of_lt he.2.2, Expr.word, Bits.trunc_of_lt he.2.2]
    rfl
  · have hup := updated_of_writeSymbolicByte hx.masked h
    refine ⟨hup.formed hx (by simp) (by simpa using ⟨he, hw⟩), hup.object_eq, hup.size_eq, ?_,
      fun j hj ↦ hup.readByte_ne hx.flushed hj⟩
    rw [readByte_eq, hup.form_self]
    rfl

/-! ## Merging -/

/-- Each byte of `z` stands for the one of `x` where `c` holds and for the one of `y` elsewhere. -/
structure Merges (c : Expr) (x y z : ObjectState) : Prop where
  formed : z.Formed
  object_eq : z.object = x.object
  size_eq : z.size = x.size
  picks : ∀ i < x.size, ∃ ex ey ez, x.readByte i = .ok ex ∧ y.readByte i = .ok ey ∧
    z.readByte i = .ok ez ∧ Expr.Picks c ex ey ez

theorem differingBytes_eq_ok {l : List (Nat × Expr × Expr)} (h : State.differingBytes x y = .ok l) :
    ∃ all : List (Nat × Expr × Expr), all.map (·.1) = List.range x.size ∧
      (∀ q ∈ all, x.readByte q.1 = .ok q.2.1 ∧ y.readByte q.1 = .ok q.2.2) ∧
      l = all.filter fun q ↦ q.2.1 ≠ q.2.2 := by
  unfold State.differingBytes at h
  generalize List.range x.size = is at h ⊢
  induction is generalizing l with
  | nil =>
    obtain rfl : [] = l := by simpa using h
    exact ⟨[], rfl, by simp, rfl⟩
  | cons i is ih =>
    rw [List.foldrM_cons, bind_eq_ok] at h
    obtain ⟨rest, hrest, h⟩ := h
    obtain ⟨all, hall, hread, rfl⟩ := ih hrest
    simp only [bind_eq_ok, pure_eq_ok] at h
    obtain ⟨ex, hx, ey, hy, rfl⟩ := h
    refine ⟨(i, ex, ey) :: all, by simp [hall], List.forall_mem_cons.2 ⟨⟨hx, hy⟩, hread⟩, ?_⟩
    by_cases heq : ex = ey <;> simp [heq]

theorem Formed.foldlM_write8 {l : List (Nat × Expr × Expr)} (hx : x.Formed) (hc : c.WellFormed)
    (hl : ∀ q ∈ l, q.2.1.WellFormed ∧ q.2.2.WellFormed ∧ q.2.1.width = 8) (hnd : (l.map (·.1)).Nodup)
    (hlt : ∀ q ∈ l, q.1 < x.size)
    (h : l.foldlM (fun z (i, ex, ey) ↦ do z.write8 i (← Expr.mkSelect c ex ey)) x = .ok y) :
    y.Formed ∧ y.object = x.object ∧ y.size = x.size ∧
      (∀ q ∈ l, ∃ e, Expr.mkSelect c q.2.1 q.2.2 = .ok e ∧ y.readByte q.1 = .ok e) ∧
      ∀ j < x.size, j ∉ l.map (·.1) → y.readByte j = x.readByte j := by
  induction l generalizing x with
  | nil =>
    obtain rfl : x = y := by simpa using h
    exact ⟨hx, rfl, rfl, by simp, fun _ _ _ ↦ rfl⟩
  | cons q l ih =>
    rw [List.forall_mem_cons] at hl hlt
    rw [List.map_cons, List.nodup_cons] at hnd
    rw [List.foldlM_cons, bind_eq_ok] at h
    obtain ⟨x₁, h₁, h⟩ := h
    obtain ⟨e, he, h₁⟩ := bind_eq_ok.1 h₁
    obtain ⟨hqx, hqy, hw⟩ := hl.1
    have hpicks : Expr.Picks c q.2.1 q.2.2 e := .inr he
    have hwritten := hx.write8 (hpicks.wellFormed hc hqx hqy)
      ((hpicks.width_eq hc hqx hqy).1.trans hw) h₁
    have hsize := hwritten.size_eq
    obtain ⟨hy, hobject, hsize', hselected, hother⟩ := ih hwritten.formed hl.2 hnd.2
      (fun r hr ↦ by rw [hsize]; exact hlt.2 r hr) h
    refine ⟨hy, hobject.trans hwritten.object_eq, hsize'.trans hsize,
      List.forall_mem_cons.2 ⟨⟨e, he, ?_⟩, hselected⟩, fun j hj hmem ↦ ?_⟩
    · rw [hother q.1 (by rw [hsize]; exact hlt.1) hnd.1]
      exact hwritten.readByte_self
    · rw [List.map_cons, List.mem_cons, not_or] at hmem
      rw [hother j (by rw [hsize]; exact hj) hmem.2]
      exact hwritten.readByte_ne j hj hmem.1

theorem Formed.of_owner (hx : x.Formed) (n : Nat) : ({ x with owner := n } : ObjectState).Formed :=
  ⟨hx.masked.congr rfl rfl rfl rfl, hx.symbolic, hx.updates, hx.flushed⟩

theorem readByte_of_owner (x : ObjectState) (n i : Nat) :
    ({ x with owner := n } : ObjectState).readByte i = x.readByte i := rfl

theorem Formed.merges {l : List (Nat × Expr × Expr)} {n : Nat} (hx : x.Formed) (hy : y.Formed)
    (hc : c.WellFormed) (hl : State.differingBytes x y = .ok l)
    (h : l.foldlM (fun z (i, ex, ey) ↦ do z.write8 i (← Expr.mkSelect c ex ey))
      { x with owner := n } = .ok z) : Merges c x y z := by
  obtain ⟨all, hindices, hread, rfl⟩ := differingBytes_eq_ok hl
  have hnd : (all.map (·.1)).Nodup := by
    rw [hindices]
    exact List.nodup_range
  have hlt : ∀ q ∈ all, q.1 < x.size := fun q hq ↦ by
    rw [← List.mem_range, ← hindices]
    exact List.mem_map_of_mem hq
  obtain ⟨hformed, hobject, hsize, hselected, hother⟩ := (hx.of_owner n).foldlM_write8 hc
    (fun q hq ↦ by
      obtain ⟨hqx, hqy⟩ := hread q (List.mem_filter.1 hq).1
      exact ⟨(hx.of_readByte hqx).1, (hy.of_readByte hqy).1, (hx.of_readByte hqx).2⟩)
    (hnd.sublist (List.filter_sublist.map _)) (fun q hq ↦ hlt q (List.mem_filter.1 hq).1) h
  refine ⟨hformed, hobject, hsize, fun i hi ↦ ?_⟩
  obtain ⟨⟨j, ex, ey⟩, hq, rfl⟩ : ∃ q ∈ all, q.1 = i := by
    rw [← List.mem_map, hindices, List.mem_range]
    exact hi
  obtain ⟨hex, hey⟩ := hread _ hq
  by_cases heq : ex = ey
  · refine ⟨ex, ey, ex, hex, hey, ?_, .inl ⟨heq, rfl⟩⟩
    rw [hother j hi, readByte_of_owner]
    · exact hex
    · intro hmem
      obtain ⟨⟨j, ex', ey'⟩, hr, rfl⟩ := List.mem_map.1 hmem
      rw [List.mem_filter, decide_eq_true_eq] at hr
      obtain ⟨hex', hey'⟩ := hread _ hr.1
      obtain rfl : ex = ex' := Except.ok.inj (hex.symm.trans hex')
      obtain rfl : ey = ey' := Except.ok.inj (hey.symm.trans hey')
      exact hr.2 heq
  · obtain ⟨e, he, hez⟩ := hselected (j, ex, ey) (List.mem_filter.2 ⟨hq, by simpa using heq⟩)
    exact ⟨ex, ey, e, hex, hey, hez, .inr he⟩

/-! ## Merging gives a result -/

theorem exists_differingBytes (hx : x.Formed) (hy : y.Formed) (hsize : x.size ≤ y.size) :
    ∃ l, State.differingBytes x y = .ok l := by
  have hall : ∀ is : List Nat, (∀ i ∈ is, i < x.size) → ∃ l, is.foldrM (fun i rest ↦ do
      let ex ← x.readByte i
      let ey ← y.readByte i
      return if ex = ey then rest else (i, ex, ey) :: rest) [] = (.ok l : Checked _) := by
    intro is
    induction is with
    | nil => exact fun _ ↦ ⟨[], rfl⟩
    | cons i is ih =>
      intro his
      rw [List.forall_mem_cons] at his
      obtain ⟨l, hl⟩ := ih his.2
      obtain ⟨ex, hex⟩ := hx.exists_readByte his.1
      obtain ⟨ey, hey⟩ := hy.exists_readByte (Nat.lt_of_lt_of_le his.1 hsize)
      exact ⟨_, by rw [List.foldrM_cons, hl, ok_bind, hex, ok_bind, hey, ok_bind]; rfl⟩
  exact hall _ fun i hi ↦ List.mem_range.1 hi

theorem exists_foldlM_write8 {l : List (Nat × Expr × Expr)} (hx : x.Formed) (hc : c.WellFormed)
    (hcw : c.width = 1)
    (hl : ∀ q ∈ l, q.2.1.WellFormed ∧ q.2.2.WellFormed ∧ q.2.1.width = 8 ∧ q.2.2.width = 8)
    (hlt : ∀ q ∈ l, q.1 < x.size) :
    ∃ y, l.foldlM (fun z (i, ex, ey) ↦ do z.write8 i (← Expr.mkSelect c ex ey)) x = .ok y := by
  induction l generalizing x with
  | nil => exact ⟨x, rfl⟩
  | cons q l ih =>
    rw [List.forall_mem_cons] at hl hlt
    obtain ⟨hqx, hqy, hwx, hwy⟩ := hl.1
    have hselect : Expr.mkSelect c q.2.1 q.2.2 = .ok (Expr.selectCore c q.2.1 q.2.2) :=
      Expr.mkSelect_eq_ok.2 ⟨⟨hcw, hwx.trans hwy.symm⟩, rfl⟩
    have hpicks : Expr.Picks c q.2.1 q.2.2 (Expr.selectCore c q.2.1 q.2.2) := .inr hselect
    obtain ⟨x₁, h₁⟩ := exists_write8 hlt.1 (Expr.selectCore c q.2.1 q.2.2)
    have hwritten := hx.write8 (hpicks.wellFormed hc hqx hqy)
      ((hpicks.width_eq hc hqx hqy).1.trans hwx) h₁
    obtain ⟨y, hy⟩ := ih hwritten.formed hl.2 fun r hr ↦ by rw [hwritten.size_eq]; exact hlt.2 r hr
    refine ⟨y, ?_⟩
    rw [List.foldlM_cons]
    simp only [hselect, ok_bind, h₁]
    exact hy

theorem Formed.exists_merges {n : Nat} {l : List (Nat × Expr × Expr)} (hx : x.Formed) (hy : y.Formed)
    (hc : c.WellFormed) (hcw : c.width = 1) (hl : State.differingBytes x y = .ok l) :
    ∃ z, l.foldlM (fun z (i, ex, ey) ↦ do z.write8 i (← Expr.mkSelect c ex ey))
      { x with owner := n } = .ok z := by
  obtain ⟨all, hindices, hread, rfl⟩ := differingBytes_eq_ok hl
  refine exists_foldlM_write8 (hx.of_owner n) hc hcw (fun q hq ↦ ?_) fun q hq ↦ ?_
  · obtain ⟨hqx, hqy⟩ := hread q (List.mem_filter.1 hq).1
    have hqx := hx.of_readByte hqx
    have hqy := hy.of_readByte hqy
    exact ⟨hqx.1, hqy.1, hqx.2, hqy.2⟩
  · change q.1 < x.size
    rw [← List.mem_range, ← hindices]
    exact List.mem_map_of_mem (List.mem_filter.1 hq).1

end ObjectState

end Symex
