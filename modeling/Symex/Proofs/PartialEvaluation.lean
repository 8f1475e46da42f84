import Symex.Proofs.FoldedTerms
import Symex.Proofs.Rebuilding

namespace Symex

namespace Expr

theorem selectCore_const (x w : Nat) (t f : Expr) :
    selectCore (.const x w) t f = if x = 0 then f else t := rfl

theorem isConst_concatCore {m l : Expr} (hm : m.isConst) (hl : l.isConst) :
    (concatCore m l).isConst := by
  obtain ⟨x, hx⟩ := isConst_iff.1 hm
  obtain ⟨y, hy⟩ := isConst_iff.1 hl
  rw [hx, hy]
  simp [concatCore, value?, word, isConst]

theorem isConst_extractCore {x : Expr} {o w : Nat} (hx : x.isConst) :
    (extractCore x o w).isConst := by
  obtain ⟨n, hn⟩ := isConst_iff.1 hx
  rw [hn, extractCore]
  split
  · rfl
  · rfl

theorem isConst_of_mkExtract {x e : Expr} {o w : Nat} (hx : x.isConst)
    (h : mkExtract x o w = .ok e) : e.isConst := by
  obtain ⟨-, rfl⟩ := mkExtract_eq_ok.1 h
  exact isConst_extractCore hx

theorem isConst_of_mkZext {x e : Expr} {w : Nat} (hx : x.isConst) (h : mkZext x w = .ok e) :
    e.isConst := by
  unfold mkZext at h
  split at h
  · obtain rfl : x = e := by simpa using h
    exact hx
  · split at h
    · exact isConst_of_mkExtract hx h
    · obtain ⟨n, hn⟩ := isConst_iff.1 hx
      simp only [Checked.bind_eq_ok] at h
      obtain ⟨-, -, h⟩ := h
      rw [hn] at h
      obtain rfl : word n w = e := by simpa using h
      rfl

theorem isConst_of_mkSext {x e : Expr} {w : Nat} (hx : x.isConst) (h : mkSext x w = .ok e) :
    e.isConst := by
  unfold mkSext at h
  split at h
  · obtain rfl : x = e := by simpa using h
    exact hx
  · split at h
    · exact isConst_of_mkExtract hx h
    · obtain ⟨n, hn⟩ := isConst_iff.1 hx
      simp only [Checked.bind_eq_ok] at h
      obtain ⟨-, -, h⟩ := h
      rw [hn] at h
      obtain rfl : Expr.const _ w = e := by simpa using h
      rfl

theorem isConst_mkNot {x : Expr} (hx : x.isConst) : (mkNot x).isConst := by
  obtain ⟨n, hn⟩ := isConst_iff.1 hx
  rw [hn]
  rfl

theorem isConst_binaryCore {op : BinOp} {l r : Expr} (hl : l.isConst) (hr : r.isConst) :
    (binaryCore op l r).isConst := by
  obtain ⟨x, hx⟩ := isConst_iff.1 hl
  obtain ⟨y, hy⟩ := isConst_iff.1 hr
  rw [hx, hy, binaryCore_eq]
  rfl

theorem isConst_compareCore {op : CmpOp} {l r : Expr} (hl : l.isConst) (hr : r.isConst) :
    (compareCore op l r).isConst := by
  obtain ⟨x, hx⟩ := isConst_iff.1 hl
  obtain ⟨y, hy⟩ := isConst_iff.1 hr
  rw [hx, hy]
  cases op with
  | eq =>
    rw [compareCore, eqCore_eq]
    rfl
  | ult | ule | slt | sle => rfl

end Expr

namespace Assignment

variable {a b : Assignment} {e r : Expr} {u : Updates} {n v : Nat}

/-- Whatever bytes `a` knows, `b` knows to be the same. -/
def Extends (b a : Assignment) : Prop :=
  ∀ (array : NamedArray) (n : Nat) (c : UInt8), a.byte? array n = some c → b.byte? array n = some c

theorem Extends.refl (a : Assignment) : a.Extends a := fun _ _ _ ↦ id

theorem extends_of_bindings (ha : a.free = false)
    (h : ∀ name bytes, a.get? name = some bytes → b.get? name = some bytes) : b.Extends a := by
  intro array n c hc
  unfold byte? at hc ⊢
  cases hb : array.byte? n with
  | some c' =>
    rw [hb] at hc
    exact hc
  | none =>
    simp only [hb, ha] at hc ⊢
    cases hbytes : a.get? array.name with
    | none => simp [hbytes] at hc
    | some bytes =>
      rw [h _ _ hbytes]
      simp only [hbytes, Option.bind_some] at hc ⊢
      cases hn : bytes[n]? with
      | none => simp [hn] at hc
      | some c' =>
        rw [hn] at hc
        exact hc

/-- The way of rebuilding that resolves the reads whose bytes `a` knows. -/
def resolution (a : Assignment) : Rebuilding where
  before := fun _ ↦ none
  after := fun e ↦
    match e with
    | .read u (.const index _) => (a.resolveRead u index).getD e
    | e => e

theorem reduce_eq_apply (a : Assignment) (e : Expr) : a.reduce e = a.resolution.apply e :=
  Rebuilding.run_eq_apply ..

theorem resolution_before (e : Expr) : a.resolution.before e = none := rfl

theorem resolution_after_read (w : Nat) :
    a.resolution.after (.read u (.const n w)) =
      (a.resolveRead u n).getD (.read u (.const n w)) := rfl

theorem resolution_after_of_isConst (h : e.isConst) : a.resolution.after e = e := by
  obtain ⟨x, hx⟩ := Expr.isConst_iff.1 h
  rw [hx]
  rfl

theorem resolveRead_refinesOn (hu : u.WellFormed) {w : Nat} (hr : a.resolveRead u n = some r) :
    RefinesOn (·.Extends a) (.read u (.const n w)) r False := by
  have hread : ∀ {b : Assignment} {v : Nat}, b.eval (.read u (.const n w)) = some v →
      b.evalRead u n = some v := by
    intro b v hv
    obtain ⟨m, hm, hv⟩ := eval_read.1 hv
    obtain rfl : n = m := by simpa using hm
    exact hv
  unfold resolveRead at hr
  split at hr
  · rename_i e he
    obtain rfl : e = r := by simpa using hr
    have hf := fun b v ↦ Updates.find_value (a := b) (v := v) hu he
    exact ⟨(hf a 0).1, (hf a 0).2.1, False.elim, False.elim,
      fun _ _ hv ↦ (hf _ _).2.2 (hread hv)⟩
  · simp at hr
  · rename_i he
    rw [Option.map_eq_some_iff] at hr
    obtain ⟨c, hc, rfl⟩ := hr
    refine ⟨Expr.word_wellFormed _ (by decide) (by decide), rfl, False.elim, False.elim,
      fun {b} hb {v} hv ↦ ?_⟩
    have hbase := Updates.find_untouched he (hread hv)
    rw [evalRead_base, hb _ _ _ hc] at hbase
    rw [eval_word, Nat.mod_eq_of_lt c.toNat_lt]
    exact hbase

theorem resolution_sound (a : Assignment) : a.resolution.Sound (·.Extends a) False := by
  refine ⟨?_, ?_⟩
  · intro e r _ h
    simp [resolution_before] at h
  · intro e he
    match e with
    | .read u (.const n w) =>
      rw [resolution_after_read]
      cases hr : a.resolveRead u n with
      | none => exact .refl he
      | some r =>
        simp only [Expr.WellFormed] at he
        exact resolveRead_refinesOn he.1 hr
    | .read u (.read ..) | .read u (.select ..) | .read u (.concat ..) | .read u (.extract ..)
    | .read u (.zext ..) | .read u (.sext ..) | .read u (.not ..) | .read u (.binary ..)
    | .read u (.compare ..) | .const .. | .select .. | .concat .. | .extract .. | .zext ..
    | .sext .. | .not .. | .binary .. | .compare .. => exact .refl he

theorem eval_resolution (he : e.WellFormed) (hb : b.Extends a)
    (hr : a.resolution.apply e = .ok r) (hv : b.eval e = some v) : b.eval r = some v := by
  obtain ⟨r', hr', href⟩ := a.resolution_sound.apply he
  obtain rfl : r' = r := by simpa [hr'] using hr
  exact href.eval_eq hb hv

theorem resolveRead_write (m w : Nat) (x : Expr) (older : Updates) :
    a.resolveRead (.write (.const m w) x older) n =
      if m = n then some x else a.resolveRead older n := by
  unfold resolveRead
  rw [Updates.find]
  simp only [Expr.value?, Updates.root]
  split
  · rename_i h
    split at h
    · obtain rfl : x = _ := by simpa using h
      rw [if_pos ‹_›]
    · rw [if_neg ‹_›, h]
  · rename_i h
    split at h
    · simp at h
    · rw [if_neg ‹_›, h]
  · rename_i h
    split at h
    · simp at h
    · rw [if_neg ‹_›, h]

theorem isConst_resolved_readCore {w : Nat} (hr : a.resolveRead u n = some r) (hc : r.isConst) :
    (a.resolution.after (Expr.readCore u (.const n w))).isConst := by
  unfold resolveRead at hr
  cases hfound : u.find n with
  | value e =>
    rw [hfound] at hr
    obtain rfl : e = r := Option.some.inj hr
    simpa [Expr.readCore, Expr.value?, hfound, resolution_after_of_isConst hc] using hc
  | blocked =>
    rw [hfound] at hr
    cases hr
  | untouched =>
    rw [hfound] at hr
    cases hroot : u.root.byte? n with
    | some b =>
      simp only [Expr.readCore, Expr.value?, hfound, hroot]
      rfl
    | none =>
      simp only [Expr.readCore, Expr.value?, hfound, hroot]
      rw [resolution_after_read, resolveRead, Updates.find, Updates.root, hr]
      exact hc

theorem resolution_node {p : Prop} [Decidable p] {m : Checked Expr}
    (h : (do return a.resolution.after (← if p then pure e else m) : Checked Expr) = .ok r) :
    p ∧ a.resolution.after e = r ∨ ∃ e', m = .ok e' ∧ a.resolution.after e' = r := by
  split at h
  · left
    exact ⟨‹_›, by simpa using h⟩
  · right
    simpa only [Checked.bind_eq_ok, Checked.pure_eq_ok] using h

theorem isConst_of_rebuilt {x y x' y' : Expr} {p : Prop} [Decidable p] {m : Checked Expr}
    (hfolded : (x.isConst && y.isConst) = false) (hp : p → x' = x ∧ y' = y) (hx : x'.isConst)
    (hy : y'.isConst) (hm : ∀ e', m = .ok e' → e'.isConst)
    (h : (do return a.resolution.after (← if p then pure e else m) : Checked Expr) = .ok r) :
    r.isConst := by
  obtain ⟨hsame, -⟩ | ⟨e', he', rfl⟩ := resolution_node h
  · obtain ⟨rfl, rfl⟩ := hp hsame
    simp [hx, hy] at hfolded
  · have hc := hm e' he'
    rwa [resolution_after_of_isConst hc]

theorem eq_const_of_resolution (he : e.WellFormed) (hv : a.eval e = some v)
    (hr : a.resolution.apply e = .ok r) (hc : r.isConst) : r = .const v e.width := by
  obtain ⟨r', hr', href⟩ := a.resolution_sound.apply he
  obtain rfl : r' = r := by simpa [hr'] using hr
  obtain ⟨n, hn⟩ := Expr.isConst_iff.1 hc
  have hv' := href.eval_eq (.refl a) hv
  rw [hn, eval_const, Option.some_inj] at hv'
  rw [hn, hv', href.width_eq]

mutual

/-- A folded term that has a value under `a` is rebuilt to a constant: no constructor makes anything
else of the constants that its parts end as. -/
theorem isConst_of_resolution {e r : Expr} {v : Nat} (he : e.WellFormed) (hf : e.Folded)
    (hv : a.eval e = some v) (hr : a.resolution.apply e = .ok r) : r.isConst := by
  unfold Rebuilding.apply at hr
  match e with
  | .const v w =>
    obtain rfl : .const v w = r := by simpa [resolution_before] using hr
    rfl
  | .read u i =>
    simp only [Expr.WellFormed] at he
    rw [Expr.folded_read] at hf
    simp only [resolution_before, Checked.bind_eq_ok] at hr
    obtain ⟨i', hi', u', hu', hr⟩ := hr
    obtain ⟨n, hn, hv⟩ := eval_read.1 hv
    obtain rfl := eq_const_of_resolution he.2.1 hn hi' (isConst_of_resolution he.2.1 hf.2 hn hi')
    obtain ⟨x, hx, hc⟩ := resolveRead_of_resolution he.1 hf.1 hv hu'
    obtain ⟨⟨hi, hu⟩, rfl⟩ | ⟨e', he', rfl⟩ := resolution_node hr
    · rw [← hi, ← hu, resolution_after_read, hx]
      exact hc
    · obtain ⟨-, rfl⟩ := Expr.mkRead_eq_ok.1 he'
      exact isConst_resolved_readCore hx hc
  | .select c t f =>
    simp only [Expr.WellFormed] at he
    rw [Expr.folded_select] at hf
    simp only [resolution_before, Checked.bind_eq_ok] at hr
    obtain ⟨c', hc', t', ht', f', hf', hr⟩ := hr
    obtain ⟨n, hn, hv⟩ := eval_select.1 hv
    obtain rfl := eq_const_of_resolution he.1 hn hc' (isConst_of_resolution he.1 hf.2.1 hn hc')
    obtain ⟨⟨hsame, -⟩, -⟩ | ⟨e', he', rfl⟩ := resolution_node hr
    · have hconst := hf.1
      rw [← hsame] at hconst
      simp [Expr.isConst] at hconst
    · obtain ⟨-, rfl⟩ := Expr.mkSelect_eq_ok.1 he'
      rw [Expr.selectCore_const]
      split at hv
      · have hc := isConst_of_resolution he.2.2.1 hf.2.2.2 hv hf'
        rwa [if_pos ‹_›, resolution_after_of_isConst hc]
      · have hc := isConst_of_resolution he.2.1 hf.2.2.1 hv ht'
        rwa [if_neg ‹_›, resolution_after_of_isConst hc]
  | .concat m l =>
    simp only [Expr.WellFormed] at he
    rw [Expr.folded_concat] at hf
    simp only [resolution_before, Checked.bind_eq_ok] at hr
    obtain ⟨m', hm', l', hl', hr⟩ := hr
    obtain ⟨x, y, hx, hy, -⟩ := eval_concat.1 hv
    have hmc := isConst_of_resolution he.1 hf.2.1 hx hm'
    have hlc := isConst_of_resolution he.2.1 hf.2.2 hy hl'
    refine isConst_of_rebuilt hf.1 id hmc hlc (fun e' he' ↦ ?_) hr
    obtain ⟨-, rfl⟩ := Expr.mkConcat_eq_ok.1 he'
    exact Expr.isConst_concatCore hmc hlc
  | .extract x o w =>
    simp only [Expr.WellFormed] at he
    rw [Expr.folded_extract] at hf
    simp only [resolution_before, Checked.bind_eq_ok] at hr
    obtain ⟨x', hx', hr⟩ := hr
    obtain ⟨n, hn, -⟩ := eval_extract.1 hv
    have hc := isConst_of_resolution he.1 hf.2 hn hx'
    exact isConst_of_rebuilt (by rw [hf.1]; rfl) (fun h ↦ ⟨h, h⟩) hc hc
      (fun e' ↦ Expr.isConst_of_mkExtract hc) hr
  | .zext x w =>
    simp only [Expr.WellFormed] at he
    rw [Expr.folded_zext] at hf
    simp only [resolution_before, Checked.bind_eq_ok] at hr
    obtain ⟨x', hx', hr⟩ := hr
    rw [eval_zext] at hv
    have hc := isConst_of_resolution he.1 hf.2 hv hx'
    exact isConst_of_rebuilt (by rw [hf.1]; rfl) (fun h ↦ ⟨h, h⟩) hc hc
      (fun e' ↦ Expr.isConst_of_mkZext hc) hr
  | .sext x w =>
    simp only [Expr.WellFormed] at he
    rw [Expr.folded_sext] at hf
    simp only [resolution_before, Checked.bind_eq_ok] at hr
    obtain ⟨x', hx', hr⟩ := hr
    obtain ⟨n, hn, -⟩ := eval_sext.1 hv
    have hc := isConst_of_resolution he.1 hf.2 hn hx'
    exact isConst_of_rebuilt (by rw [hf.1]; rfl) (fun h ↦ ⟨h, h⟩) hc hc
      (fun e' ↦ Expr.isConst_of_mkSext hc) hr
  | .not x =>
    simp only [Expr.WellFormed] at he
    rw [Expr.folded_not] at hf
    simp only [resolution_before, Checked.bind_eq_ok] at hr
    obtain ⟨x', hx', hr⟩ := hr
    obtain ⟨n, hn, -⟩ := eval_not.1 hv
    have hc := isConst_of_resolution he hf.2 hn hx'
    rw [if_neg fun h ↦ by simp [← h, hc] at hf, Checked.pure_eq_ok] at hr
    rw [← hr]
    have hnot := Expr.isConst_mkNot hc
    exact (resolution_after_of_isConst hnot).symm ▸ hnot
  | .binary op l r =>
    simp only [Expr.WellFormed] at he
    rw [Expr.folded_binary] at hf
    simp only [resolution_before, Checked.bind_eq_ok] at hr
    obtain ⟨l', hl', r', hr', hr⟩ := hr
    obtain ⟨x, y, hx, hy, -⟩ := eval_binary.1 hv
    have hlc := isConst_of_resolution he.1 hf.2.1 hx hl'
    have hrc := isConst_of_resolution he.2.1 hf.2.2 hy hr'
    refine isConst_of_rebuilt hf.1 id hlc hrc (fun e' he' ↦ ?_) hr
    obtain ⟨-, rfl⟩ := Expr.mkBinary_eq_ok.1 he'
    exact Expr.isConst_binaryCore hlc hrc
  | .compare op l r =>
    simp only [Expr.WellFormed] at he
    rw [Expr.folded_compare] at hf
    simp only [resolution_before, Checked.bind_eq_ok] at hr
    obtain ⟨l', hl', r', hr', hr⟩ := hr
    obtain ⟨x, y, hx, hy, -⟩ := eval_compare.1 hv
    have hlc := isConst_of_resolution he.1 hf.2.1 hx hl'
    have hrc := isConst_of_resolution he.2.1 hf.2.2 hy hr'
    refine isConst_of_rebuilt hf.1 id hlc hrc (fun e' he' ↦ ?_) hr
    obtain ⟨-, rfl⟩ := Expr.mkCompare_eq_ok.1 he'
    exact Expr.isConst_compareCore hlc hrc

theorem resolveRead_of_resolution {u u' : Updates} {n v : Nat} (hu : u.WellFormed) (hf : u.Folded)
    (hv : a.evalRead u n = some v) (hr : a.resolution.applyUpdates u = .ok u') :
    ∃ x, a.resolveRead u' n = some x ∧ x.isConst := by
  unfold Rebuilding.applyUpdates at hr
  match u with
  | .base array =>
    obtain rfl : .base array = u' := by simpa using hr
    rw [evalRead_base, Option.map_eq_some_iff] at hv
    obtain ⟨c, hc, -⟩ := hv
    refine ⟨.word c.toNat 8, ?_, rfl⟩
    rw [resolveRead, Updates.find, Updates.root, hc]
    rfl
  | .write i x older =>
    simp only [Updates.WellFormed] at hu
    rw [Updates.folded_write] at hf
    simp only [Checked.bind_eq_ok] at hr
    obtain ⟨i', hi', x', hx', older', ho', hr⟩ := hr
    obtain ⟨-, rfl⟩ := Updates.extend_eq_ok.1 hr
    obtain ⟨m, hm, hv⟩ := evalRead_write.1 hv
    obtain rfl := eq_const_of_resolution hu.1 hm hi' (isConst_of_resolution hu.1 hf.1 hm hi')
    rw [resolveRead_write]
    split at hv
    · exact ⟨x', if_pos ‹_›, isConst_of_resolution hu.2.1 hf.2.1 hv hx'⟩
    · rw [if_neg ‹_›]
      exact resolveRead_of_resolution hu.2.2.1 hf.2.2 hv ho'

end

end Assignment

namespace RawTerm

variable {t : RawTerm} {e : Expr} {a : Assignment}

/-- Partial evaluation agrees with evaluation. What is built from a term can be evaluated in part; it
ends as the constant of its value if `a` determines that, and otherwise, if `a` leaves bytes
unknown, as an expression that has the same value under all that gives these bytes contents. -/
theorem reduce_of_build (h : t.build = .ok e) (a : Assignment) :
    ∃ r, a.reduce e = .ok r ∧
      (∀ v, a.value? e = some v → r = .const v e.width) ∧
      (a.free = false → ∀ b : Assignment,
        (∀ name bytes, a.get? name = some bytes → b.get? name = some bytes) →
        ∀ v, b.value? e = some v → b.value? r = some v) := by
  have hwf := (build_denotes (a := ⟨true, {}⟩) rfl h).wellFormed
  obtain ⟨r, hr, -⟩ := a.resolution_sound.apply hwf
  refine ⟨r, ?_, ?_, ?_⟩
  · rw [a.reduce_eq_apply]
    exact hr
  · intro v hv
    rw [a.value?_eq_eval] at hv
    exact Assignment.eq_const_of_resolution hwf hv hr
      (Assignment.isConst_of_resolution hwf (build_folded h) hv hr)
  · intro ha b hbindings v hv
    rw [b.value?_eq_eval] at hv ⊢
    exact Assignment.eval_resolution hwf (Assignment.extends_of_bindings ha hbindings) hr hv

/-- A sum of two bytes, one of which is known: it is determined only once the other one is. -/
theorem reduce_of_build_half_known :
    ∃ r, ((Assignment.mk false {}).bind "x" ⟨#[2]⟩).reduce
        (.binary .add (.read (.base (.symbolic "x" 1)) (.const 0 32))
          (.read (.base (.symbolic "y" 1)) (.const 0 32))) = .ok r ∧
      (((Assignment.mk false {}).bind "x" ⟨#[2]⟩).bind "y" ⟨#[3]⟩).value? r = some 5 := by
  obtain ⟨r, hr, -, hb⟩ := reduce_of_build (e := .binary .add
      (.read (.base (.symbolic "x" 1)) (.const 0 32)) (.read (.base (.symbolic "y" 1)) (.const 0 32)))
    (t := .binary .add (.read (.base (.symbolic "x" 1)) (.constant 0 32))
      (.read (.base (.symbolic "y" 1)) (.constant 0 32))) rfl
    ((Assignment.mk false {}).bind "x" ⟨#[2]⟩)
  refine ⟨r, hr, hb rfl _ ?_ 5 (by decide +kernel)⟩
  intro name bytes h
  simp only [Assignment.get?, Assignment.bind, Std.TreeMap.getElem?_insert] at h ⊢
  grind

/-- Replacement keeps values. The map may have any keys, at any depth of the term: as long as each
replacement has the width and the value of its key, the result has those of the term. -/
theorem value_of_replace (h : t.build = .ok e) {s : Substitution}
    (hs : ∀ k v : Expr, s[k]? = some v → v.WellFormed ∧ v.width = k.width) (ha : a.free)
    (hv : ∀ k v : Expr, s[k]? = some v → a.value? v = a.value? k) :
    ∃ r, e.replace s = .ok r ∧ r.width = e.width ∧ a.value? r = a.value? e := by
  have hwf := (build_denotes ha h).wellFormed
  have hkeys : ∀ {k v : Expr}, k.WellFormed → s[k]? = some v → RefinesOn (· = a) k v False := by
    intro k v _ hk
    obtain ⟨hvw, hwidth⟩ := hs k v hk
    refine ⟨hvw, hwidth, False.elim, False.elim, fun {b} hb {n} hn ↦ ?_⟩
    have heq := hv k v hk
    rw [a.value?_eq_eval, a.value?_eq_eval] at heq
    rw [hb] at hn ⊢
    rw [heq, hn]
  obtain ⟨r, hr, href⟩ := Expr.exists_replace hwf hkeys
  obtain ⟨n, hn⟩ := Assignment.exists_eval ha e
  refine ⟨r, hr, href.width_eq, ?_⟩
  rw [a.value?_eq_eval, a.value?_eq_eval, hn]
  exact href.eval_eq rfl hn

/-- A byte that a solution fixes is replaced by its value inside a sum. -/
theorem value_of_replace_known_byte :
    ∃ r, (Expr.binary .add (.const 1 8) (.read (.base (.symbolic "x" 1)) (.const 0 32))).replace
        (({} : Substitution).insert (.read (.base (.symbolic "x" 1)) (.const 0 32)) (.const 5 8)) =
          .ok r ∧ r.width = 8 ∧
      ((Assignment.mk true {}).bind "x" ⟨#[5]⟩).value? r = some 6 := by
  have honly : ∀ k v : Expr, (({} : Substitution).insert
      (.read (.base (.symbolic "x" 1)) (.const 0 32)) (.const 5 8))[k]? = some v →
      k = .read (.base (.symbolic "x" 1)) (.const 0 32) ∧ v = .const 5 8 := by
    intro k v hk
    rw [Std.HashMap.getElem?_insert] at hk
    split at hk
    · exact ⟨(eq_of_beq ‹_›).symm, by simpa [eq_comm] using hk⟩
    · simp at hk
  obtain ⟨r, hr, hw, hv⟩ := value_of_replace
    (t := .binary .add (.constant 1 8) (.read (.base (.symbolic "x" 1)) (.constant 0 32)))
    (e := .binary .add (.const 1 8) (.read (.base (.symbolic "x" 1)) (.const 0 32))) rfl
    (fun k v hk ↦ by
      obtain ⟨rfl, rfl⟩ := honly k v hk
      exact ⟨by simp, rfl⟩)
    (a := (Assignment.mk true {}).bind "x" ⟨#[5]⟩) rfl
    (fun k v hk ↦ by
      obtain ⟨rfl, rfl⟩ := honly k v hk
      decide +kernel)
  exact ⟨r, hr, hw, hv.trans (by decide +kernel)⟩

end RawTerm

end Symex
