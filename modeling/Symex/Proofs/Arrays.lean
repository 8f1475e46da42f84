import Symex.Proofs.Weights
import Symex.Proofs.Reads

namespace Symex

mutual

def Expr.ReadsIn (S : NamedArray → Prop) : Expr → Prop
  | .const _ _ => True
  | .read u i => u.ReadsIn S ∧ i.ReadsIn S
  | .select c t f => c.ReadsIn S ∧ t.ReadsIn S ∧ f.ReadsIn S
  | .concat m l => m.ReadsIn S ∧ l.ReadsIn S
  | .extract x _ _ | .zext x _ | .sext x _ | .not x => x.ReadsIn S
  | .binary _ l r | .compare _ l r => l.ReadsIn S ∧ r.ReadsIn S

def Updates.ReadsIn (S : NamedArray → Prop) : Updates → Prop
  | .base array => S array
  | .write i x older => i.ReadsIn S ∧ x.ReadsIn S ∧ older.ReadsIn S

end

variable {S : NamedArray → Prop}

theorem Updates.ReadsIn.root {u : Updates} (h : u.ReadsIn S) : S u.root := by
  induction u with
  | base array =>
    simp only [Updates.ReadsIn] at h
    exact h
  | write i x older ih =>
    simp only [Updates.ReadsIn] at h
    exact ih h.2.2

mutual

theorem Expr.readsIn_true (e : Expr) : e.ReadsIn fun _ ↦ True := by
  match e with
  | .const _ _ => simp only [Expr.ReadsIn]
  | .read u i =>
    simp only [Expr.ReadsIn]
    exact ⟨u.readsIn_true, i.readsIn_true⟩
  | .select c t f =>
    simp only [Expr.ReadsIn]
    exact ⟨c.readsIn_true, t.readsIn_true, f.readsIn_true⟩
  | .concat l r | .binary _ l r | .compare _ l r =>
    simp only [Expr.ReadsIn]
    exact ⟨l.readsIn_true, r.readsIn_true⟩
  | .extract x _ _ | .zext x _ | .sext x _ | .not x =>
    simp only [Expr.ReadsIn]
    exact x.readsIn_true

theorem Updates.readsIn_true (u : Updates) : u.ReadsIn fun _ ↦ True := by
  match u with
  | .base array => simp only [Updates.ReadsIn]
  | .write i x older =>
    simp only [Updates.ReadsIn]
    exact ⟨i.readsIn_true, x.readsIn_true, older.readsIn_true⟩

end

theorem Updates.find_readsIn {u : Updates} {n : Nat} {e : Expr} (h : u.ReadsIn S)
    (hf : u.find n = .value e) : e.ReadsIn S := by
  induction u with
  | base array => simp [find] at hf
  | write i x older ih =>
    simp only [Updates.ReadsIn] at h
    rw [find] at hf
    split at hf
    · split at hf
      · obtain rfl : x = e := by simpa using hf
        exact h.2.1
      · exact ih h.2.2 hf
    · simp at hf

namespace Expr

@[simp] theorem readsIn_const (v w : Nat) : (Expr.const v w).ReadsIn S := by
  simp only [ReadsIn]

@[simp] theorem readsIn_word (v w : Nat) : (word v w).ReadsIn S := readsIn_const ..
@[simp] theorem readsIn_bool (b : Bool) : (bool b).ReadsIn S := readsIn_const ..
theorem readCore_readsIn {u : Updates} {i : Expr} (h : (Expr.read u i).ReadsIn S) :
    (readCore u i).ReadsIn S := by
  have hparts := h
  simp only [ReadsIn] at hparts
  unfold readCore
  split
  · exact h
  · split
    · exact Updates.find_readsIn hparts.1 ‹_›
    · exact h
    · split
      · simp
      · simp only [ReadsIn, Updates.ReadsIn]
        exact ⟨hparts.1.root, hparts.2⟩

theorem orderCore_readsIn {op : CmpOp} {l r : Expr} (hl : l.ReadsIn S) (hr : r.ReadsIn S) :
    (orderCore op l r).ReadsIn S := by
  have h : (Expr.compare op l r).ReadsIn S := by simpa only [ReadsIn] using ⟨hl, hr⟩
  unfold orderCore
  split
  · simp
  · split
    · simp
    · split
      · simp
      · split
        · simp
        · exact h

theorem eqOrdered_readsIn {l r : Expr} (hl : l.ReadsIn S) (hr : r.ReadsIn S) :
    (eqOrdered l r).ReadsIn S := by
  have h : (Expr.compare .eq l r).ReadsIn S := by simpa only [ReadsIn] using ⟨hl, hr⟩
  unfold eqOrdered
  split
  · exact hr
  · split
    · split
      · split
        · simp only [ReadsIn] at hr
          exact hr.2
        · exact h
      · simp only [ReadsIn] at hr
        exact orderCore_readsIn hr.2 hr.1
      · exact h
    · exact h

theorem eqCore_readsIn {l r : Expr} (hl : l.ReadsIn S) (hr : r.ReadsIn S) :
    (eqCore l r).ReadsIn S := by
  rw [eqCore_eq]
  split
  · simp
  · split
    · simp
    · split
      · exact eqOrdered_readsIn hr hl
      · exact eqOrdered_readsIn hl hr

theorem compareCore_readsIn {op : CmpOp} {l r : Expr} (hl : l.ReadsIn S) (hr : r.ReadsIn S) :
    (compareCore op l r).ReadsIn S := by
  cases op with
  | eq => exact eqCore_readsIn hl hr
  | ult | ule | slt | sle => exact orderCore_readsIn hl hr

theorem isZero_readsIn {e : Expr} (h : e.ReadsIn S) : (isZero e).ReadsIn S := by
  unfold isZero
  split
  · simp
  · split
    · simp only [ReadsIn] at h
      exact h.2
    · exact eqCore_readsIn (by simp) h
  · simp only [ReadsIn] at h
    exact orderCore_readsIn h.2 h.1
  · exact eqCore_readsIn (by simp) h

theorem selectCore_readsIn {c t f : Expr} (hc : c.ReadsIn S) (ht : t.ReadsIn S)
    (hf : f.ReadsIn S) : (selectCore c t f).ReadsIn S := by
  unfold selectCore
  split
  · split
    · exact hf
    · exact ht
  · split
    · exact ht
    · split
      · exact hc
      · split
        · exact isZero_readsIn hc
        · simpa only [ReadsIn] using ⟨hc, ht, hf⟩

theorem joinExtracts_readsIn {m l j : Expr} (hl : l.ReadsIn S) (h : joinExtracts m l = some j) :
    j.ReadsIn S := by
  unfold joinExtracts at h
  split at h
  · split at h
    · simp only [Option.some.injEq] at h
      subst h
      simp only [ReadsIn] at hl
      split
      · exact hl
      · simpa only [ReadsIn] using hl
    · simp at h
  · simp at h

theorem concatCore_readsIn {m l : Expr} (hm : m.ReadsIn S) (hl : l.ReadsIn S) :
    (concatCore m l).ReadsIn S := by
  fun_induction concatCore m l with
  | case1 m im il j hj ih =>
    simp only [ReadsIn] at hl
    exact ih (joinExtracts_readsIn hl.1 hj) hl.2
  | case2 m im il =>
    simp only [ReadsIn] at hl ⊢
    exact ⟨hm, hl⟩
  | case3 => simp
  | case4 m =>
    simp only [ReadsIn]
    exact ⟨hm, trivial⟩
  | case5 m l =>
    cases hj : joinExtracts m l with
    | none => simpa only [Option.getD_none, ReadsIn] using ⟨hm, hl⟩
    | some j => exact joinExtracts_readsIn hl hj

theorem extractCore_readsIn {e : Expr} {o w : Nat} (h : e.ReadsIn S) :
    (extractCore e o w).ReadsIn S := by
  fun_induction extractCore e o w with
  | case1 e => exact h
  | case2 => simp
  | case3 o w m l _ _ ih =>
    simp only [ReadsIn] at h
    exact ih h.1
  | case4 o w m l _ _ _ ih =>
    simp only [ReadsIn] at h
    exact ih h.2
  | case5 o w m l _ _ low _ ihm ihl =>
    simp only [ReadsIn] at h
    exact concatCore_readsIn (ihm h.1) (ihl h.2)
  | case6 o w x _ _ _ ih | case7 o w x _ _ _ ih =>
    simp only [ReadsIn] at h
    exact ih h
  | case8 => simp
  | case9 | case10 => simpa only [ReadsIn] using h

theorem binaryOrdered_readsIn {op : BinOp} {l r : Expr} (hl : l.ReadsIn S) (hr : r.ReadsIn S) :
    (binaryOrdered op l r).ReadsIn S := by
  obtain h | h | h | h := binaryOrdered_cases op l r
  · rwa [h]
  · rwa [h]
  · simp [h]
  · rw [h]
    simpa only [ReadsIn] using ⟨hl, hr⟩

theorem binaryCore_readsIn {op : BinOp} {l r : Expr} (hl : l.ReadsIn S) (hr : r.ReadsIn S) :
    (binaryCore op l r).ReadsIn S := by
  rw [binaryCore_eq]
  split
  · simp
  · split
    · exact binaryOrdered_readsIn hr hl
    · exact binaryOrdered_readsIn hl hr

theorem mkNot_readsIn {e : Expr} (h : e.ReadsIn S) : (mkNot e).ReadsIn S := by
  unfold mkNot
  split
  · simp
  · simpa only [ReadsIn] using h
  · simpa only [ReadsIn] using h

theorem mkZext_readsIn {e r : Expr} {w : Nat} (h : e.ReadsIn S) (hr : mkZext e w = .ok r) :
    r.ReadsIn S := by
  unfold mkZext at hr
  split at hr
  · obtain rfl : e = r := by simpa using hr
    exact h
  · split at hr
    · obtain ⟨-, rfl⟩ := mkExtract_eq_ok.1 hr
      exact extractCore_readsIn h
    · simp only [Checked.bind_eq_ok] at hr
      obtain ⟨-, -, hr⟩ := hr
      split at hr
      · obtain rfl : word _ w = r := by simpa using hr
        simp
      · obtain rfl : .zext e w = r := by simpa using hr
        simpa only [ReadsIn] using h

theorem mkSext_readsIn {e r : Expr} {w : Nat} (h : e.ReadsIn S) (hr : mkSext e w = .ok r) :
    r.ReadsIn S := by
  unfold mkSext at hr
  split at hr
  · obtain rfl : e = r := by simpa using hr
    exact h
  · split at hr
    · obtain ⟨-, rfl⟩ := mkExtract_eq_ok.1 hr
      exact extractCore_readsIn h
    · simp only [Checked.bind_eq_ok] at hr
      obtain ⟨-, -, hr⟩ := hr
      split at hr
      · obtain rfl : Expr.const _ w = r := by simpa using hr
        simp
      · obtain rfl : .sext e w = r := by simpa using hr
        simpa only [ReadsIn] using h

end Expr

end Symex
