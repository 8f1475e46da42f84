import Symex.Assignment
import Symex.Proofs.Words

namespace Symex

open Bits

mutual

/-- All widths lie between 1 and 64 bits and fit each other, and constants fit their widths. This
holds of whatever the constructors build. -/
def Expr.WellFormed : Expr → Prop
  | .const v w => 0 < w ∧ w ≤ maxWidth ∧ v < 2 ^ w
  | .read u i => u.WellFormed ∧ i.WellFormed ∧ i.width = 32
  | .select c t f =>
    c.WellFormed ∧ t.WellFormed ∧ f.WellFormed ∧ c.width = 1 ∧ t.width = f.width
  | .concat m l => m.WellFormed ∧ l.WellFormed ∧ m.width + l.width ≤ maxWidth
  | .extract e offset w => e.WellFormed ∧ 0 < w ∧ offset + w ≤ e.width
  | .zext e w => e.WellFormed ∧ e.width ≤ w ∧ w ≤ maxWidth
  | .sext e w => e.WellFormed ∧ e.width ≤ w ∧ w ≤ maxWidth
  | .not e => e.WellFormed
  | .binary _ l r => l.WellFormed ∧ r.WellFormed ∧ l.width = r.width
  | .compare _ l r => l.WellFormed ∧ r.WellFormed ∧ l.width = r.width

def Updates.WellFormed : Updates → Prop
  | .base _ => True
  | .write i v older => i.WellFormed ∧ v.WellFormed ∧ older.WellFormed ∧ i.width = 32 ∧ v.width = 8

end

attribute [simp] Expr.WellFormed Updates.WellFormed

@[simp] theorem maxWidth_eq : maxWidth = 64 := rfl

@[simp] theorem Expr.width_const (v w : Nat) : (Expr.const v w).width = w := rfl
@[simp] theorem Expr.width_read (u : Updates) (i : Expr) : (Expr.read u i).width = 8 := rfl
@[simp] theorem Expr.width_select (c t f : Expr) : (Expr.select c t f).width = t.width := rfl
@[simp] theorem Expr.width_concat (m l : Expr) : (Expr.concat m l).width = m.width + l.width := rfl
@[simp] theorem Expr.width_extract (e : Expr) (o w : Nat) : (Expr.extract e o w).width = w := rfl
@[simp] theorem Expr.width_zext (e : Expr) (w : Nat) : (Expr.zext e w).width = w := rfl
@[simp] theorem Expr.width_sext (e : Expr) (w : Nat) : (Expr.sext e w).width = w := rfl
@[simp] theorem Expr.width_not (e : Expr) : (Expr.not e).width = e.width := rfl
@[simp] theorem Expr.width_binary (op : BinOp) (l r : Expr) : (Expr.binary op l r).width = l.width := rfl
@[simp] theorem Expr.width_compare (op : CmpOp) (l r : Expr) : (Expr.compare op l r).width = 1 := rfl

theorem Expr.WellFormed.width_range {e : Expr} (h : e.WellFormed) : 0 < e.width ∧ e.width ≤ 64 := by
  match e with
  | .const v w =>
    simp only [WellFormed, maxWidth_eq] at h
    exact ⟨h.1, h.2.1⟩
  | .read u i => simp
  | .select c t f =>
    simp only [WellFormed] at h
    exact h.2.1.width_range
  | .concat m l =>
    simp only [WellFormed, maxWidth_eq] at h
    have hm := h.1.width_range
    have hl := h.2.1.width_range
    simp only [width_concat]
    omega
  | .extract e o w =>
    simp only [WellFormed] at h
    have he := h.1.width_range
    simp only [width_extract]
    omega
  | .zext e w | .sext e w =>
    simp only [WellFormed, maxWidth_eq] at h
    have he := h.1.width_range
    simp only [width_zext, width_sext]
    omega
  | .not e =>
    simp only [WellFormed] at h
    exact h.width_range
  | .binary op l r =>
    simp only [WellFormed] at h
    exact h.1.width_range
  | .compare op l r => simp

namespace Assignment

variable {a : Assignment} {v : Nat}

@[simp] theorem eval_const (a : Assignment) (v w : Nat) : a.eval (.const v w) = some v := by
  rw [eval]

@[simp] theorem eval_read {u : Updates} {i : Expr} :
    a.eval (.read u i) = some v ↔ ∃ n, a.eval i = some n ∧ a.evalRead u n = some v := by
  rw [eval]
  exact Option.bind_eq_some_iff

@[simp] theorem eval_select {c t f : Expr} :
    a.eval (.select c t f) = some v ↔
      ∃ n, a.eval c = some n ∧ a.eval (if n = 0 then f else t) = some v := by
  rw [eval]
  simp only [Option.bind_eq_bind, Option.bind_eq_some_iff, apply_ite]

@[simp] theorem eval_concat {m l : Expr} :
    a.eval (.concat m l) = some v ↔
      ∃ x y, a.eval m = some x ∧ a.eval l = some y ∧ (x <<< l.width) ||| y = v := by
  rw [eval]
  simp [Option.bind_eq_some_iff]

@[simp] theorem eval_extract {e : Expr} {o w : Nat} :
    a.eval (.extract e o w) = some v ↔ ∃ x, a.eval e = some x ∧ (x >>> o) % 2 ^ w = v := by
  rw [eval]
  simp [Option.bind_eq_some_iff, trunc_eq]

@[simp] theorem eval_zext {e : Expr} {w : Nat} : a.eval (.zext e w) = a.eval e := by
  rw [eval]

@[simp] theorem eval_sext {e : Expr} {w : Nat} :
    a.eval (.sext e w) = some v ↔
      ∃ x, a.eval e = some x ∧ ofSigned w (toSigned e.width x) = v := by
  rw [eval]
  simp [Option.bind_eq_some_iff]

@[simp] theorem eval_not {e : Expr} :
    a.eval (.not e) = some v ↔ ∃ x, a.eval e = some x ∧ 2 ^ e.width - 1 - x % 2 ^ e.width = v := by
  rw [eval]
  simp [Option.bind_eq_some_iff, trunc_eq]

@[simp] theorem eval_binary {op : BinOp} {l r : Expr} :
    a.eval (.binary op l r) = some v ↔
      ∃ x y, a.eval l = some x ∧ a.eval r = some y ∧ op.fold x y l.width = v := by
  rw [eval]
  simp [Option.bind_eq_some_iff]

@[simp] theorem eval_compare {op : CmpOp} {l r : Expr} :
    a.eval (.compare op l r) = some v ↔
      ∃ x y, a.eval l = some x ∧ a.eval r = some y ∧ (op.fold x y l.width).toNat = v := by
  rw [eval]
  simp [Option.bind_eq_some_iff]

@[simp] theorem evalRead_base {array : NamedArray} {n : Nat} :
    a.evalRead (.base array) n = (a.byte? array n).map (·.toNat) := by
  rw [evalRead]

@[simp] theorem evalRead_write {i x : Expr} {older : Updates} {n : Nat} :
    a.evalRead (.write i x older) n = some v ↔
      ∃ m, a.eval i = some m ∧ (if m = n then a.eval x else a.evalRead older n) = some v := by
  rw [evalRead]
  exact Option.bind_eq_some_iff

mutual

theorem eval_lt {a : Assignment} {e : Expr} {v : Nat} (he : e.WellFormed) (hv : a.eval e = some v) :
    v < 2 ^ e.width := by
  match e with
  | .const n w =>
    simp only [Expr.WellFormed] at he
    obtain rfl : n = v := by simpa using hv
    exact he.2.2
  | .read u i =>
    simp only [Expr.WellFormed] at he
    obtain ⟨n, -, hn⟩ := eval_read.1 hv
    exact evalRead_lt he.1 hn
  | .select c t f =>
    simp only [Expr.WellFormed] at he
    obtain ⟨n, -, hn⟩ := eval_select.1 hv
    rw [Expr.width_select]
    split at hn
    · rw [he.2.2.2.2]
      exact eval_lt he.2.2.1 hn
    · exact eval_lt he.2.1 hn
  | .concat m l =>
    simp only [Expr.WellFormed] at he
    obtain ⟨x, y, hx, hy, rfl⟩ := eval_concat.1 hv
    have hx' := eval_lt he.1 hx
    have hy' := eval_lt he.2.1 hy
    rw [Expr.width_concat, Nat.shiftLeft_eq, Nat.mul_comm, ← Nat.two_pow_add_eq_or_of_lt hy',
      Nat.pow_add]
    calc 2 ^ l.width * x + y < 2 ^ l.width * x + 2 ^ l.width := by omega
      _ = 2 ^ l.width * (x + 1) := by rw [Nat.mul_succ]
      _ ≤ 2 ^ l.width * 2 ^ m.width := Nat.mul_le_mul_left _ hx'
      _ = 2 ^ m.width * 2 ^ l.width := Nat.mul_comm _ _
  | .extract e o w =>
    obtain ⟨x, -, rfl⟩ := eval_extract.1 hv
    exact Nat.mod_lt _ (Nat.two_pow_pos w)
  | .zext e w =>
    simp only [Expr.WellFormed] at he
    rw [eval_zext] at hv
    exact Nat.lt_of_lt_of_le (eval_lt he.1 hv) (Nat.pow_le_pow_right (by decide) he.2.1)
  | .sext e w =>
    obtain ⟨x, -, rfl⟩ := eval_sext.1 hv
    exact ofSigned_lt _ _
  | .not e =>
    obtain ⟨x, -, rfl⟩ := eval_not.1 hv
    have := Nat.two_pow_pos e.width
    rw [Expr.width_not]
    omega
  | .binary op l r =>
    obtain ⟨x, y, -, -, rfl⟩ := eval_binary.1 hv
    exact op.fold_lt _ _ _
  | .compare op l r =>
    obtain ⟨x, y, -, -, rfl⟩ := eval_compare.1 hv
    exact Bool.toNat_lt _

theorem evalRead_lt {a : Assignment} {u : Updates} {n v : Nat} (hu : u.WellFormed)
    (hv : a.evalRead u n = some v) : v < 2 ^ 8 := by
  match u with
  | .base array =>
    rw [evalRead_base, Option.map_eq_some_iff] at hv
    obtain ⟨b, -, rfl⟩ := hv
    exact b.toNat_lt
  | .write i x older =>
    simp only [Updates.WellFormed] at hu
    obtain ⟨m, -, hm⟩ := evalRead_write.1 hv
    split at hm
    · rw [← hu.2.2.2.2]
      exact eval_lt hu.2.1 hm
    · exact evalRead_lt hu.2.2.1 hm

end

mutual

theorem exists_eval {a : Assignment} (ha : a.free) (e : Expr) : ∃ v, a.eval e = some v := by
  match e with
  | .const n w => exact ⟨n, eval_const a n w⟩
  | .read u i =>
    obtain ⟨n, hn⟩ := exists_eval ha i
    obtain ⟨v, hv⟩ := exists_evalRead ha u n
    exact ⟨v, eval_read.2 ⟨n, hn, hv⟩⟩
  | .select c t f =>
    obtain ⟨n, hn⟩ := exists_eval ha c
    obtain ⟨x, hx⟩ := exists_eval ha t
    obtain ⟨y, hy⟩ := exists_eval ha f
    refine ⟨if n = 0 then y else x, eval_select.2 ⟨n, hn, ?_⟩⟩
    split <;> assumption
  | .concat m l =>
    obtain ⟨x, hx⟩ := exists_eval ha m
    obtain ⟨y, hy⟩ := exists_eval ha l
    exact ⟨_, eval_concat.2 ⟨x, y, hx, hy, rfl⟩⟩
  | .extract e o w =>
    obtain ⟨x, hx⟩ := exists_eval ha e
    exact ⟨_, eval_extract.2 ⟨x, hx, rfl⟩⟩
  | .zext e w =>
    rw [eval_zext]
    exact exists_eval ha e
  | .sext e w =>
    obtain ⟨x, hx⟩ := exists_eval ha e
    exact ⟨_, eval_sext.2 ⟨x, hx, rfl⟩⟩
  | .not e =>
    obtain ⟨x, hx⟩ := exists_eval ha e
    exact ⟨_, eval_not.2 ⟨x, hx, rfl⟩⟩
  | .binary op l r =>
    obtain ⟨x, hx⟩ := exists_eval ha l
    obtain ⟨y, hy⟩ := exists_eval ha r
    exact ⟨_, eval_binary.2 ⟨x, y, hx, hy, rfl⟩⟩
  | .compare op l r =>
    obtain ⟨x, hx⟩ := exists_eval ha l
    obtain ⟨y, hy⟩ := exists_eval ha r
    exact ⟨_, eval_compare.2 ⟨x, y, hx, hy, rfl⟩⟩

theorem exists_evalRead {a : Assignment} (ha : a.free) (u : Updates) (n : Nat) :
    ∃ v, a.evalRead u n = some v := by
  match u with
  | .base array =>
    rw [evalRead_base]
    unfold byte?
    split
    · exact ⟨_, rfl⟩
    · split
      · exact ⟨_, rfl⟩
      · rw [if_pos ha]
        exact ⟨_, rfl⟩
  | .write i x older =>
    obtain ⟨m, hm⟩ := exists_eval ha i
    obtain ⟨y, hy⟩ := exists_eval ha x
    obtain ⟨z, hz⟩ := exists_evalRead ha older n
    refine ⟨if m = n then y else z, evalRead_write.2 ⟨m, hm, ?_⟩⟩
    split <;> assumption

end

end Assignment

end Symex
