import Symex.Proofs.Questions

namespace Symex

open Symex.Expr

variable {σ : Type} {I : Inputs} {c : ConstraintSet} {e : Expr} {fails : Prop}

namespace Solver

theorem answers_mayBeFalse (hc : c.Valid) (hsat : I.Satisfiable c) (he : e.WellFormed) :
    (mayBeFalse c e : Ask σ Bool).Answers I fails fun v ↦ v = true ↔ ∃ a, I.Solves a c ∧ a.val e = 0 := by
  refine Ask.answers_bind (answers_mustBeTrue hc hsat he) fun v hv ↦ Ask.answers_pure ?_
  have hnot : (∃ a, I.Solves a c ∧ a.val e = 0) ↔ ¬∀ a, I.Solves a c → a.val e ≠ 0 := by
    simp
  rw [hnot, ← hv]
  simp

/-- Every answer is the truth about all solutions, and a value is that of some solution. This holds with and
without simplification, and for a backend that may also fail to answer. -/
theorem answers_exact (hc : c.Valid) (hsat : I.Satisfiable c) (he : e.WellFormed) :
    (evaluate c e : Ask σ Validity).Answers I fails (·.Tells I c e) ∧
    ((mustBeTrue c e : Ask σ Bool).Answers I fails fun v ↦ v = true ↔ ∀ a, I.Solves a c → a.val e ≠ 0) ∧
    ((mustBeFalse c e : Ask σ Bool).Answers I fails fun v ↦ v = true ↔ ∀ a, I.Solves a c → a.val e = 0) ∧
    ((mayBeTrue c e : Ask σ Bool).Answers I fails fun v ↦ v = true ↔ ∃ a, I.Solves a c ∧ a.val e ≠ 0) ∧
    ((mayBeFalse c e : Ask σ Bool).Answers I fails fun v ↦ v = true ↔ ∃ a, I.Solves a c ∧ a.val e = 0) ∧
    (value c e : Ask σ Expr).Answers I fails (Example I c e) :=
  ⟨answers_evaluate hc hsat he, answers_mustBeTrue hc hsat he, answers_mustBeFalse hc hsat he,
    answers_mayBeTrue hc hsat he, answers_mayBeFalse hc hsat he, answers_value hc hsat he⟩

def inputByte : Expr := .read (.base (.symbolic "x" 1)) (.const 0 32)

/-- Whether a byte that has to be zero is below ten, asked with a backend that answers nothing. -/
theorem answers_exact_zero_byte : ∃ c, ConstraintSet.add {} (.compare .eq (.const 0 8) inputByte) = .ok c ∧
    (evaluate c (.compare .ult inputByte (.const 10 8)) : Ask Unit Validity).Answers .all True
      (·.Tells .all c (.compare .ult inputByte (.const 10 8))) := by
  have hsolves : Inputs.all.Solves ⟨true, {}⟩ {} := ⟨rfl, by simp [ConstraintSet.toList]⟩
  have hzero : (Assignment.mk true {}).val (.compare .eq (.const 0 8) inputByte) ≠ 0 := by decide
  obtain ⟨c, hadd, hvalid, hiff⟩ := ConstraintSet.valid_empty.exists_add (by simp [inputByte, IsTruth])
    ⟨_, hsolves, hzero⟩
  exact ⟨c, hadd, (answers_exact hvalid ⟨_, (hiff _).2 ⟨hsolves, hzero⟩⟩ (by simp [inputByte])).1⟩

/-- The range of an expression is found, without an overflow on the way, and its bounds are the least and
the greatest value of the expression, also where not all numbers in between are values. -/
theorem range_exact (hc : c.Valid) (hsat : I.Satisfiable c) (he : e.WellFormed) {s : Solver σ}
    (hs : s.backend.Exact I False) :
    ∃ low high s', (range c e).run.run s = .ok (.ok (low, high), s') ∧ s.Same s' ∧
      IsLeast (I.values c e) low ∧ IsGreatest (I.values c e) high := by
  obtain ⟨r, s', hrun, hsame, hr⟩ := answers_range hc hsat he s hs
  cases r with
  | error _ => exact hr.elim
  | ok bounds => exact ⟨bounds.1, bounds.2, s', hrun, hsame, hr⟩

/-- The outer bits of a byte, which take the values 0, 1, 128 and 129. -/
theorem range_exact_outer_bits :
    ∃ low high s', (range {} (.binary .and inputByte (.const 129 8))).run.run
        ({ backend := Backend.omniscient .all, state := () } : Solver Unit) = .ok (.ok (low, high), s') ∧
      s'.backend = Backend.omniscient .all ∧
      IsLeast (Inputs.all.values {} (.binary .and inputByte (.const 129 8))) low ∧
      IsGreatest (Inputs.all.values {} (.binary .and inputByte (.const 129 8))) high := by
  obtain ⟨low, high, s', hrun, hsame, hbounds⟩ := range_exact (e := .binary .and inputByte (.const 129 8))
    ConstraintSet.valid_empty (Inputs.satisfiable_empty _) (by simp [inputByte])
    (s := { backend := Backend.omniscient .all, state := () }) (Backend.exact_omniscient _ _)
  exact ⟨low, high, s', hrun, hsame.backend_eq, hbounds⟩

end Solver

end Symex
