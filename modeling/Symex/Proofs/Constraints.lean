import Symex.ConstraintSet
import Symex.Proofs.Rebuilding

namespace Symex

namespace Assignment

variable {a : Assignment}

def Holds (a : Assignment) (c : Expr) : Prop := ∃ v, a.eval c = some v ∧ v ≠ 0

def HoldsAll (a : Assignment) (cs : List Expr) : Prop := ∀ c ∈ cs, a.Holds c

@[simp] theorem holdsAll_nil : a.HoldsAll [] := by simp [HoldsAll]

@[simp] theorem holdsAll_cons {c : Expr} {cs : List Expr} :
    a.HoldsAll (c :: cs) ↔ a.Holds c ∧ a.HoldsAll cs := by
  simp [HoldsAll]

@[simp] theorem holdsAll_append {cs ds : List Expr} :
    a.HoldsAll (cs ++ ds) ↔ a.HoldsAll cs ∧ a.HoldsAll ds := List.forall_mem_append

@[simp] theorem holdsAll_reverse {cs : List Expr} : a.HoldsAll cs.reverse ↔ a.HoldsAll cs := by
  simp [HoldsAll]

theorem satisfies?_eq_true {cs : List Expr} : a.satisfies? cs = some true ↔ a.HoldsAll cs := by
  induction cs with
  | nil => simp [satisfies?]
  | cons c cs ih =>
    rw [satisfies?, value?_eq_eval, holdsAll_cons, Holds]
    cases a.eval c with
    | none => simp
    | some v =>
      by_cases hv : v = 0
      · simp [hv]
      · simpa [hv] using ih

theorem exists_satisfies? (ha : a.free) (cs : List Expr) : ∃ b, a.satisfies? cs = some b := by
  induction cs with
  | nil => exact ⟨true, rfl⟩
  | cons c cs ih =>
    obtain ⟨v, hv⟩ := exists_eval ha c
    rw [satisfies?, value?_eq_eval, hv]
    by_cases h0 : v = 0
    · exact ⟨false, by simp [h0]⟩
    · simpa [h0] using ih

theorem satisfies?_congr (ha : a.free) {cs ds : List Expr} (h : a.HoldsAll cs ↔ a.HoldsAll ds) :
    a.satisfies? cs = a.satisfies? ds := by
  obtain ⟨b, hb⟩ := exists_satisfies? ha cs
  obtain ⟨d, hd⟩ := exists_satisfies? ha ds
  rw [← satisfies?_eq_true, ← satisfies?_eq_true, hb, hd] at h
  rw [hb, hd]
  cases b <;> cases d <;> simp_all

end Assignment

def Expr.IsTruth (c : Expr) : Prop := c.WellFormed ∧ c.width = 1

theorem Expr.IsTruth.eval_eq_one {a : Assignment} {c : Expr} (h : c.IsTruth) (hc : a.Holds c) :
    a.eval c = some 1 := by
  obtain ⟨v, hv, h0⟩ := hc
  have := Assignment.eval_lt h.1 hv
  rw [h.2] at this
  obtain rfl : v = 1 := by omega
  exact hv

theorem RefinesOn.holds_iff {H : Assignment → Prop} {a : Assignment} {c c' : Expr}
    (h : RefinesOn H c c') (ha : a.free) (hH : H a) : a.Holds c ↔ a.Holds c' := by
  obtain ⟨v, hv⟩ := Assignment.exists_eval ha c
  rw [Assignment.Holds, Assignment.Holds, hv, h.eval_eq hH hv]

theorem Expr.IsTruth.of_refinesOn {H : Assignment → Prop} {c c' : Expr} (hc : c.IsTruth)
    (h : RefinesOn H c c') : c'.IsTruth := ⟨h.wellFormed, h.width_eq.trans hc.2⟩

theorem Expr.IsTruth.and {l r : Expr} (h : (Expr.binary .and l r).IsTruth) :
    l.IsTruth ∧ r.IsTruth := by
  obtain ⟨hw, h1⟩ := h
  simp only [WellFormed, width_binary] at hw h1
  exact ⟨⟨hw.1, h1⟩, ⟨hw.2.1, hw.2.2 ▸ h1⟩⟩

theorem Assignment.holds_and {a : Assignment} {l r : Expr} (ha : a.free)
    (h : (Expr.binary .and l r).IsTruth) : a.Holds (.binary .and l r) ↔ a.Holds l ∧ a.Holds r := by
  obtain ⟨hl, hr⟩ := h.and
  obtain ⟨x, hx⟩ := exists_eval ha l
  obtain ⟨y, hy⟩ := exists_eval ha r
  have hx2 := eval_lt hl.1 hx
  have hy2 := eval_lt hr.1 hy
  have hv : a.eval (.binary .and l r) = some (BinOp.and.fold x y l.width) :=
    eval_binary.2 ⟨x, y, hx, hy, rfl⟩
  rw [hl.2] at hx2 hv
  rw [hr.2] at hy2
  rw [Holds, Holds, Holds, hx, hy, hv]
  have bit : ∀ x < 2, ∀ y < 2, BinOp.and.fold x y 1 ≠ 0 ↔ x ≠ 0 ∧ y ≠ 0 := by decide
  simpa using bit x hx2 y hy2

theorem Assignment.holds_eq_const {a : Assignment} {v w : Nat} {t : Expr}
    (h : (Expr.compare .eq (.const v w) t).WellFormed) (hc : a.Holds (.compare .eq (.const v w) t)) :
    a.eval t = some v := by
  simp only [Expr.WellFormed, Expr.width_const] at h
  obtain ⟨b, hb, h0⟩ := hc
  obtain ⟨x, y, hx, hy, rfl⟩ := eval_compare.1 hb
  obtain rfl : v = x := by simpa using hx
  have hlt := eval_lt h.2.1 hy
  rw [← h.2.2] at hlt
  have : v = y := by simpa [CmpOp.fold, Bits.trunc_of_lt hlt, Bits.trunc_of_lt h.1.2.2] using h0
  rw [hy, this]

namespace ConstraintSet

/-- What a constraint lets be replaced, and by what. -/
def replacement (c : Expr) : Expr × Expr :=
  match c with
  | .compare .eq (.const v w) target => (target, .const v w)
  | c => (c, .bool true)

theorem replacement_of_ne {c : Expr} (h : ∀ v w t, c = .compare .eq (.const v w) t → False) :
    replacement c = (c, .bool true) := by
  unfold replacement
  split
  · exact (h _ _ _ rfl).elim
  · rfl

theorem forget_eq (s : ConstraintSet) (c : Expr) :
    s.forget c = { s with known := s.known.erase (replacement c).1 } := by
  unfold forget
  split
  · rfl
  · rw [replacement_of_ne ‹_›]

theorem replacement_refinesOn {c : Expr} (hc : c.IsTruth) :
    RefinesOn (·.Holds c) (replacement c).1 (replacement c).2 := by
  unfold replacement
  split
  · rename_i v w t
    have hw := hc.1
    simp only [Expr.WellFormed, Expr.width_const] at hw
    refine ⟨?_, hw.2.2, fun _ ↦ Expr.weight_pos t, fun _ {_} _ ↦ Expr.readsIn_const ..,
      fun {_} ha {n} hn ↦ ?_⟩
    · simp only [Expr.WellFormed]
      exact hw.1
    · rw [Assignment.holds_eq_const hc.1 ha] at hn
      rw [Assignment.eval_const, hn]
  · refine ⟨Expr.bool_wellFormed true, hc.2.symm, fun _ ↦ Expr.weight_pos c,
      fun _ {_} _ ↦ Expr.readsIn_bool _, fun {_} ha {n} hn ↦ ?_⟩
    rw [hc.eval_eq_one ha] at hn
    rw [Assignment.eval_bool, ← hn]
    rfl

/-- Every replacement comes from one of the constraints `cs`. -/
def Justified (cs : List Expr) (known : Substitution) : Prop :=
  ∀ k v, known[k]? = some v → ∃ c ∈ cs, replacement c = (k, v)

theorem Justified.refinesOn {cs : List Expr} {known : Substitution} (h : Justified cs known)
    (hcs : ∀ c ∈ cs, c.IsTruth) {k v : Expr} (hk : known[k]? = some v) :
    RefinesOn (·.HoldsAll cs) k v := by
  obtain ⟨c, hc, hr⟩ := h k v hk
  have href := replacement_refinesOn (hcs c hc)
  rw [hr] at href
  exact ⟨href.wellFormed, href.width_eq, href.weight_le, href.readsIn,
    fun ha ↦ href.eval_eq (ha c hc)⟩

/-- What holds of every set of constraints: its members are truth values, and they justify all the
replacements. -/
structure Valid (s : ConstraintSet) : Prop where
  truths : ∀ c ∈ s.toList, c.IsTruth
  justified : Justified s.toList s.known

theorem valid_empty : Valid {} := ⟨by simp [toList], fun k v hk ↦ by simp at hk⟩

theorem Valid.exists_simplify {s : ConstraintSet} (hs : s.Valid) {e : Expr} (he : e.WellFormed) :
    ∃ e', s.simplify e = .ok e' ∧ RefinesOn (·.HoldsAll s.toList) e e' := by
  unfold simplify
  split
  · exact ⟨e, rfl, .refl he⟩
  · exact Expr.exists_replace he fun _ hk ↦ hs.justified.refinesOn hs.truths hk

end ConstraintSet

end Symex
