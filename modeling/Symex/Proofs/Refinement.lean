import Symex.Proofs.Evaluation

namespace Symex

open Bits

/-- Under the assignment `a`, `e'` can be used in the place of `e`. -/
structure Refines (a : Assignment) (e e' : Expr) : Prop where
  wellFormed : e'.WellFormed
  width_eq : e'.width = e.width
  eval_eq : ∀ {v : Nat}, a.eval e = some v → a.eval e' = some v

variable {a : Assignment}

namespace Refines

theorem refl {e : Expr} (h : e.WellFormed) : Refines a e e := ⟨h, rfl, id⟩

theorem trans {e e' e'' : Expr} (h : Refines a e e') (h' : Refines a e' e'') : Refines a e e'' :=
  ⟨h'.wellFormed, h'.width_eq.trans h.width_eq, fun hv ↦ h'.eval_eq (h.eval_eq hv)⟩

end Refines

namespace Expr

theorem value?_eq_some {e : Expr} {n : Nat} : e.value? = some n ↔ e = .const n e.width := by
  cases e <;> simp [value?]

theorem isConst_iff {e : Expr} : e.isConst = true ↔ ∃ n, e = .const n e.width := by
  cases e <;> simp [isConst]

theorem isTrue_iff {e : Expr} : e.isTrue = true ↔ e = .const 1 1 := by
  cases e <;> simp [isTrue]
  exact and_comm

theorem isFalse_iff {e : Expr} : e.isFalse = true ↔ e = .const 0 1 := by
  cases e <;> simp [isFalse]
  exact and_comm

theorem word_wellFormed {w : Nat} (v : Nat) (h0 : 0 < w) (h : w ≤ 64) : (word v w).WellFormed := by
  simp only [word, WellFormed]
  exact ⟨h0, h, trunc_lt w v⟩

@[simp] theorem bool_wellFormed (b : Bool) : (bool b).WellFormed := by
  cases b <;> simp [bool, WellFormed]

@[simp] theorem width_word (v w : Nat) : (word v w).width = w := rfl
@[simp] theorem width_bool (b : Bool) : (bool b).width = 1 := rfl

end Expr

@[simp] theorem Assignment.eval_word (v w : Nat) : a.eval (.word v w) = some (v % 2 ^ w) := by
  rw [Expr.word, eval_const, trunc_eq]

@[simp] theorem Assignment.eval_bool (b : Bool) : a.eval (.bool b) = some b.toNat := by
  rw [Expr.bool, eval_const]

namespace Updates

@[induction_eliminator]
theorem chainInduction {motive : Updates → Prop} (base : ∀ array, motive (.base array))
    (write : ∀ i x older, motive older → motive (.write i x older)) (u : Updates) : motive u := by
  cases u with
  | base array => exact base array
  | write i x older => exact write i x older (chainInduction base write older)

theorem find_value {u : Updates} {n v : Nat} {e : Expr} (hu : u.WellFormed)
    (hf : u.find n = .value e) :
    e.WellFormed ∧ e.width = 8 ∧ (a.evalRead u n = some v → a.eval e = some v) := by
  induction u with
  | base array => simp [find] at hf
  | write i x older ih =>
    simp only [WellFormed] at hu
    obtain ⟨hi, hx, ho, hiw, hxw⟩ := hu
    rw [find] at hf
    split at hf
    · rename_i j hj
      rw [Expr.value?_eq_some] at hj
      rw [Assignment.evalRead_write, hj]
      split at hf
      · rename_i hjn
        obtain rfl : x = e := by simpa using hf
        refine ⟨hx, hxw, ?_⟩
        rintro ⟨m, hm, hv⟩
        obtain rfl : j = m := by simpa using hm
        simpa [hjn] using hv
      · rename_i hjn
        obtain ⟨he, hw, hv⟩ := ih ho hf
        refine ⟨he, hw, ?_⟩
        rintro ⟨m, hm, hr⟩
        obtain rfl : j = m := by simpa using hm
        rw [if_neg hjn] at hr
        exact hv hr
    · simp at hf

theorem find_untouched {u : Updates} {n v : Nat} (hf : u.find n = .untouched)
    (hv : a.evalRead u n = some v) : a.evalRead (.base u.root) n = some v := by
  induction u with
  | base array => exact hv
  | write i x older ih =>
    rw [find] at hf
    split at hf
    · rename_i j hj
      rw [Expr.value?_eq_some] at hj
      split at hf
      · simp at hf
      · rename_i hjn
        rw [Assignment.evalRead_write, hj] at hv
        obtain ⟨m, hm, hr⟩ := hv
        obtain rfl : j = m := by simpa using hm
        rw [if_neg hjn] at hr
        exact ih hf hr
    · simp at hf

end Updates

namespace Expr

theorem readCore_refines {u : Updates} {i : Expr} (h : (Expr.read u i).WellFormed) :
    Refines a (.read u i) (readCore u i) := by
  have hw := h
  simp only [WellFormed] at hw
  obtain ⟨hu, hi, hiw⟩ := hw
  rw [readCore]
  split
  · exact .refl h
  · rename_i n hn
    rw [value?_eq_some] at hn
    have hread : ∀ {v : Nat}, a.eval (.read u i) = some v → a.evalRead u n = some v := by
      intro v hv
      obtain ⟨m, hm, hr⟩ := Assignment.eval_read.1 hv
      rw [hn] at hm
      obtain rfl : n = m := by simpa using hm
      exact hr
    split
    · rename_i e he
      have hf := fun v ↦ Updates.find_value (a := a) (v := v) hu he
      exact ⟨(hf 0).1, (hf 0).2.1, fun hv ↦ (hf _).2.2 (hread hv)⟩
    · exact .refl h
    · rename_i he
      have hbase : ∀ {v : Nat}, a.eval (.read u i) = some v →
          a.evalRead (.base u.root) n = some v :=
        fun hv ↦ Updates.find_untouched he (hread hv)
      split
      · rename_i b hb
        refine ⟨word_wellFormed _ (by decide) (by decide), rfl, fun {v} hv ↦ ?_⟩
        have hv' := hbase hv
        rw [Assignment.evalRead_base, Assignment.byte?, hb] at hv'
        rw [Assignment.eval_word, Nat.mod_eq_of_lt b.toNat_lt]
        exact hv'
      · refine ⟨?_, rfl, fun {v} hv ↦ ?_⟩
        · simp only [WellFormed, Updates.WellFormed]
          exact ⟨trivial, hi, hiw⟩
        · refine Assignment.eval_read.2 ⟨n, ?_, hbase hv⟩
          rw [hn]
          exact Assignment.eval_const _ _ _

end Expr

end Symex
