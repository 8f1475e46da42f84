import Symex.Proofs.Arithmetic
import Symex.Proofs.BitRanges
import Symex.Proofs.Comparisons
import Symex.Proofs.Fault

namespace Symex

open Bits

variable {a : Assignment} {e e' : Expr}

namespace Updates

@[simp] theorem extend_eq_ok {u u' : Updates} {i x : Expr} :
    u.extend i x = .ok u' ↔ (i.width = 32 ∧ x.width = 8) ∧ .write i x u = u' := by
  simp [extend]

end Updates

namespace Expr

@[simp] theorem constant_eq_ok {v w : Nat} :
    constant v w = .ok e ↔ (0 < w ∧ w ≤ 64) ∧ word v w = e := by
  simp only [constant, Checked.bind_eq_ok, demand_eq_ok, Checked.pure_eq_ok, exists_const]
  rfl

@[simp] theorem mkRead_eq_ok {u : Updates} {i : Expr} :
    mkRead u i = .ok e ↔ i.width = 32 ∧ readCore u i = e := by
  simp [mkRead]

@[simp] theorem mkSelect_eq_ok {c t f : Expr} :
    mkSelect c t f = .ok e ↔ (c.width = 1 ∧ t.width = f.width) ∧ selectCore c t f = e := by
  simp [mkSelect]

@[simp] theorem mkConcat_eq_ok {m l : Expr} :
    mkConcat m l = .ok e ↔ m.width + l.width ≤ 64 ∧ concatCore m l = e := by
  simp only [mkConcat, Checked.bind_eq_ok, demand_eq_ok, Checked.pure_eq_ok, exists_const]
  rfl

@[simp] theorem mkExtract_eq_ok {x : Expr} {o w : Nat} :
    mkExtract x o w = .ok e ↔ (0 < w ∧ o + w ≤ x.width) ∧ extractCore x o w = e := by
  simp [mkExtract]

@[simp] theorem mkBinary_eq_ok {op : BinOp} {l r : Expr} :
    mkBinary op l r = .ok e ↔ l.width = r.width ∧ binaryCore op l r = e := by
  simp [mkBinary]

@[simp] theorem mkCompare_eq_ok {op : CmpOp} {l r : Expr} :
    mkCompare op l r = .ok e ↔ l.width = r.width ∧ compareCore op l r = e := by
  simp [mkCompare]

theorem mkZext_of_lt {w : Nat} (h : w < e.width) : mkZext e w = mkExtract e 0 w := by
  unfold mkZext
  rw [if_neg (by omega), if_pos h]
  rfl

theorem mkSext_of_lt {w : Nat} (h : w < e.width) : mkSext e w = mkExtract e 0 w := by
  unfold mkSext
  rw [if_neg (by omega), if_pos h]
  rfl

theorem zext_refines {w : Nat} (h : (Expr.zext e w).WellFormed) (he' : mkZext e w = .ok e') :
    Refines a (.zext e w) e' := by
  have hw := h
  simp only [WellFormed] at hw
  have hr := h.width_range
  unfold mkZext at he'
  split at he'
  · rename_i heq
    obtain rfl : e = e' := by simpa using he'
    exact ⟨hw.1, heq.symm, fun hv ↦ by rwa [Assignment.eval_zext] at hv⟩
  · split at he'
    · omega
    · simp only [Checked.bind_eq_ok, demand_eq_ok, exists_const] at he'
      obtain ⟨-, he'⟩ := he'
      split at he'
      · rename_i v w' _ _
        obtain rfl : word v w = e' := by simpa using he'
        refine ⟨word_wellFormed _ hr.1 hr.2, rfl, fun {n} hn ↦ ?_⟩
        have hlt : n < 2 ^ w := Assignment.eval_lt h hn
        rw [Assignment.eval_zext, Assignment.eval_const, Option.some_inj] at hn
        rw [Assignment.eval_word, hn, Nat.mod_eq_of_lt hlt]
      · obtain rfl : .zext e w = e' := by simpa using he'
        exact .refl h

theorem sext_refines {w : Nat} (h : (Expr.sext e w).WellFormed) (he' : mkSext e w = .ok e') :
    Refines a (.sext e w) e' := by
  have hw := h
  simp only [WellFormed] at hw
  have hr := h.width_range
  unfold mkSext at he'
  split at he'
  · rename_i heq
    obtain rfl : e = e' := by simpa using he'
    refine ⟨hw.1, heq.symm, fun {v} hv ↦ ?_⟩
    obtain ⟨x, hx, rfl⟩ := Assignment.eval_sext.1 hv
    have hlt := Assignment.eval_lt hw.1 hx
    rw [hx, heq, toSigned_eq_toInt, ofSigned_eq_toNat, BitVec.ofInt_toInt, BitVec.toNat_ofNat,
      Nat.mod_eq_of_lt hlt]
  · split at he'
    · omega
    · simp only [Checked.bind_eq_ok, demand_eq_ok, exists_const] at he'
      obtain ⟨-, he'⟩ := he'
      split at he'
      · rename_i v w' _ _
        obtain rfl : .const (ofSigned w (toSigned w' v)) w = e' := by simpa using he'
        refine ⟨?_, rfl, fun {n} hn ↦ ?_⟩
        · simp only [WellFormed]
          exact ⟨hr.1, hr.2, ofSigned_lt _ _⟩
        · obtain ⟨x, hx, rfl⟩ := Assignment.eval_sext.1 hn
          rw [Assignment.eval_const, Option.some_inj] at hx
          rw [Assignment.eval_const, hx]
          rfl
      · obtain rfl : .sext e w = e' := by simpa using he'
        exact .refl h

theorem exists_mkZext {w : Nat} (h : (Expr.zext e w).WellFormed) : ∃ e', mkZext e w = .ok e' := by
  simp only [WellFormed] at h
  unfold mkZext
  split
  · exact ⟨e, rfl⟩
  · rw [if_neg (by omega), demand_of h.2.2]
    split
    · exact ⟨_, rfl⟩
    · exact ⟨_, rfl⟩

theorem exists_mkSext {w : Nat} (h : (Expr.sext e w).WellFormed) : ∃ e', mkSext e w = .ok e' := by
  simp only [WellFormed] at h
  unfold mkSext
  split
  · exact ⟨e, rfl⟩
  · rw [if_neg (by omega), demand_of h.2.2]
    split
    · exact ⟨_, rfl⟩
    · exact ⟨_, rfl⟩

theorem width_le_of_mkZext {w : Nat} (hw : e.WellFormed) (h : mkZext e w = .ok e') : w ≤ 64 := by
  have := hw.width_range
  unfold mkZext at h
  split at h
  · omega
  · split at h
    · omega
    · simp only [Checked.bind_eq_ok, demand_eq_ok, exists_const] at h
      exact h.1

theorem width_le_of_mkSext {w : Nat} (hw : e.WellFormed) (h : mkSext e w = .ok e') : w ≤ 64 := by
  have := hw.width_range
  unfold mkSext at h
  split at h
  · omega
  · split at h
    · omega
    · simp only [Checked.bind_eq_ok, demand_eq_ok, exists_const] at h
      exact h.1

end Expr

end Symex
