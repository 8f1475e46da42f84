import Symex.Proofs.AddedConstraints

namespace Symex

namespace ConstraintSet

/-- A part of an addition. -/
inductive Task where
  /-- A constraint is simplified, and then enters the set. -/
  | add (c : Expr)
  /-- A simplified constraint enters the set, or its parts do. -/
  | enter (c : Expr)
  /-- An equation goes to the end of the set that it has rewritten. -/
  | record (c : Expr)

/-- An addition under way: the set as it stands, and what is left to be done, the next task first. -/
structure Addition where
  set : ConstraintSet
  tasks : List Task

namespace Addition

/-- Carries out a task that is followed by others. What it leads to comes before them. -/
def perform (s : ConstraintSet) (rest : List Task) : Task → Checked Addition
  | .add c => do
    demand (c.width = 1) .width
    return ⟨s, .enter (← s.simplify c) :: rest⟩
  | .enter (.const v _) => do
    demand (v ≠ 0) .infeasible
    return ⟨s, rest⟩
  | .enter (.binary .and l r) => return ⟨s, .add l :: .add r :: rest⟩
  | .enter (.compare .eq (.const v w) target) => do
    let p ← s.takeAffected target (.const v w)
    return ⟨p.1, p.2.map .add ++ .record (.compare .eq (.const v w) target) :: rest⟩
  | .enter c => return ⟨s.push c, rest⟩
  | .record c => return ⟨s.push c, rest⟩

/-- The next step, unless nothing is left to be done. -/
def step? : Addition → Option (Checked Addition)
  | ⟨_, []⟩ => none
  | ⟨s, task :: rest⟩ => some (perform s rest task)

/-- The steps come to an end, with a set or a fault. -/
inductive Ends : Addition → Checked ConstraintSet → Prop
  | done (s : ConstraintSet) : Ends ⟨s, []⟩ (.ok s)
  | fault {a : Addition} {f : Fault} (h : a.step? = some (.error f)) : Ends a (.error f)
  | step {a b : Addition} {r : Checked ConstraintSet} (h : a.step? = some (.ok b)) (hb : Ends b r) :
      Ends a r

def before (a : Addition) (rest : List Task) : Addition := ⟨a.set, a.tasks ++ rest⟩

theorem perform_append (s : ConstraintSet) (ts rest : List Task) (task : Task) :
    perform s (ts ++ rest) task = (·.before rest) <$> perform s ts task := by
  unfold perform
  split
  · rename_i c
    cases demand (c.width = 1) .width with
    | error f => rfl
    | ok u => cases s.simplify c <;> rfl
  · rename_i v w
    cases demand (v ≠ 0) .infeasible <;> rfl
  · rfl
  · rename_i v w target
    cases s.takeAffected target (.const v w) with
    | error f => rfl
    | ok p => simp [before]
  · rfl
  · rfl

theorem step?_before {a : Addition} {x : Checked Addition} (h : a.step? = some x) (rest : List Task) :
    (a.before rest).step? = some ((·.before rest) <$> x) := by
  obtain ⟨s, _ | ⟨task, ts⟩⟩ := a
  · cases h
  · obtain rfl : perform s ts task = x := Option.some.inj h
    exact congrArg some (perform_append s ts rest task)

variable {a : Addition} {r : Checked ConstraintSet}

theorem Ends.bind {f : ConstraintSet → Checked ConstraintSet} {rest : List Task} (h : a.Ends r)
    (hrest : ∀ t, r = .ok t → Ends ⟨t, rest⟩ (f t)) : (a.before rest).Ends (r >>= f) := by
  induction h with
  | done s => exact hrest s rfl
  | fault h => exact .fault (step?_before h rest)
  | step h _ ih => exact .step (step?_before h rest) (ih hrest)

theorem Ends.not_chain (h : a.Ends r) :
    ¬∃ chain : Nat → Addition, chain 0 = a ∧ ∀ n, (chain n).step? = some (.ok (chain (n + 1))) := by
  induction h with
  | done s =>
    rintro ⟨chain, h0, hstep⟩
    have h := hstep 0
    rw [h0] at h
    cases h
  | fault h =>
    rintro ⟨chain, rfl, hstep⟩
    cases h.symm.trans (hstep 0)
  | step h _ ih =>
    rintro ⟨chain, rfl, hstep⟩
    cases h.symm.trans (hstep 0)
    exact ih ⟨fun n ↦ chain (n + 1), rfl, fun n ↦ hstep (n + 1)⟩

end Addition

open Addition

/-- The tasks come to an end with `r`, a set or the fault of a contradiction. -/
structure Concludes (s : ConstraintSet) (tasks : List Task) (r : Checked ConstraintSet) : Prop where
  ends : Ends ⟨s, tasks⟩ r
  infeasible : ∀ f, r = .error f → f = .infeasible

theorem Concludes.bind {s : ConstraintSet} {ts rest : List Task} {r : Checked ConstraintSet}
    {f : ConstraintSet → Checked ConstraintSet} (h : Concludes s ts r)
    (hrest : ∀ t, r = .ok t → Concludes t rest (f t)) : Concludes s (ts ++ rest) (r >>= f) := by
  refine ⟨h.ends.bind fun t ht ↦ (hrest t ht).ends, fun e he ↦ ?_⟩
  cases r with
  | error e' =>
    obtain rfl : e' = e := Except.error.inj he
    exact h.infeasible e' rfl
  | ok t => exact (hrest t rfl).infeasible e he

theorem Concludes.step {s t : ConstraintSet} {task : Task} {ts rest : List Task}
    {r : Checked ConstraintSet} (h : perform s rest task = .ok ⟨t, ts⟩) (ht : Concludes t ts r) :
    Concludes s (task :: rest) r :=
  ⟨.step (congrArg some h) ht.ends, ht.infeasible⟩

theorem concludes_done (s : ConstraintSet) : Concludes s [] (.ok s) := ⟨.done s, nofun⟩

variable {fuel : Nat} {s : ConstraintSet}

theorem concludes_foldlM
    (ih : ∀ {s c}, s.Valid → c.IsTruth → s.weight + c.weight < fuel →
      Concludes s [.add c] (addWithin fuel s c))
    {cs : List Expr} (hs : s.Valid) (hcs : ∀ c ∈ cs, c.IsTruth)
    (hw : s.weight + (cs.map (·.weight)).sum < fuel) :
    Concludes s (cs.map .add) (cs.foldlM (addWithin fuel) s) := by
  induction cs generalizing s with
  | nil => exact concludes_done s
  | cons c cs ihcs =>
    rw [List.forall_mem_cons] at hcs
    rw [List.map_cons, List.sum_cons] at hw
    rw [List.foldlM_cons]
    refine (ih hs hcs.1 (by omega)).bind fun t ht ↦ ?_
    have hadded := added_of_addWithin hs hcs.1.1 ht
    have hle := hadded.weight_le
    rw [List.map_cons, List.sum_cons, List.map_nil, List.sum_nil] at hle
    exact ihcs hadded.valid hcs.2 (by omega)

/-- With those that it leaves, the constraints that an equation changes weigh no more than the set did. So they
are added again within the weight of the set alone. -/
theorem concludes_addSimplified
    (ih : ∀ {s c}, s.Valid → c.IsTruth → s.weight + c.weight < fuel →
      Concludes s [.add c] (addWithin fuel s c))
    (hs : s.Valid) {c : Expr} (hc : c.IsTruth) (hw : s.weight + c.weight ≤ fuel) :
    Concludes s [.enter c] (addSimplified fuel s c) := by
  unfold addSimplified
  split
  · rename_i v w
    by_cases hv : v ≠ 0
    · rw [demand_of hv]
      exact .step (by rw [perform, demand_of hv]; rfl) (concludes_done s)
    · have hfault : demand (v ≠ 0) .infeasible = .error .infeasible := if_neg hv
      rw [hfault]
      exact ⟨.fault (congrArg some (by rw [perform, hfault]; rfl)), fun f hf ↦ by cases hf; rfl⟩
  · rename_i l r
    have hparts : ∀ c ∈ [l, r], c.IsTruth := by simpa using hc.and
    rw [Expr.weight_binary] at hw
    refine .step rfl (concludes_foldlM ih hs hparts ?_)
    simp only [List.map_cons, List.sum_cons, List.map_nil, List.sum_nil]
    omega
  · rename_i v w target
    obtain ⟨t, changed, htake, ht⟩ := hs.exists_takeAffected hc
    have hle := ht.weight_le
    rw [← weight_eq] at hle
    rw [Expr.weight_compare] at hw
    rw [htake, Checked.ok_bind]
    -- The equation is no member of the set yet while the constraints it changed are added again.
    have hchanged := concludes_foldlM ih ht.valid ht.truths (by omega)
    exact .step (by rw [perform, htake]; rfl)
      (hchanged.bind fun u _ ↦ .step rfl (concludes_done (u.push (.compare .eq (.const v w) target))))
  · rename_i hconst hand heq
    have hperform : perform s [] (.enter c) = .ok ⟨s.push c, []⟩ := by
      unfold perform
      split <;> simp_all
    exact .step hperform (concludes_done _)

/-- Simplification makes no term heavier, so the weight of a set and a constraint bounds how deeply additions
are nested. -/
theorem concludes_addWithin {c : Expr} (hs : s.Valid) (hc : c.IsTruth)
    (hw : s.weight + c.weight < fuel) : Concludes s [.add c] (addWithin fuel s c) := by
  induction fuel generalizing s c with
  | zero => omega
  | succ fuel ih =>
    obtain ⟨c', hc', href⟩ := hs.exists_simplify hc.1
    have hle := href.weight_le trivial
    rw [addWithin_succ, demand_of hc.2, Checked.ok_bind, hc', Checked.ok_bind]
    refine .step ?_ (concludes_addSimplified ih hs (hc.of_refinesOn href) (by omega))
    rw [perform, demand_of hc.2, hc']
    rfl

/-- Every chain of steps that adding a truth value to a set leads to is finite: of simplifying, splitting,
rewriting and adding again what was rewritten. It leads to what `add` gives, a new set unless the constraint
contradicts those that are there. -/
theorem additions_end {cs : List Expr} {s : ConstraintSet} {c : Expr} (hcs : ∀ c ∈ cs, c.WellFormed)
    (h : cs.foldlM add {} = .ok s) (hc : c.WellFormed) (hw : c.width = 1) :
    (¬∃ chain : Nat → Addition, chain 0 = ⟨s, [.add c]⟩ ∧
      ∀ n, (chain n).step? = some (.ok (chain (n + 1)))) ∧
    Ends ⟨s, [.add c]⟩ (s.add c) ∧ ∀ f, s.add c = .error f → f = .infeasible := by
  have hadded := added_foldlM (fun hs hc ↦ added_of_addWithin hs hc) valid_empty hcs h
  have hadd : Concludes s [.add c] (s.add c) :=
    concludes_addWithin hadded.valid ⟨hc, hw⟩ (Nat.lt_succ_self _)
  exact ⟨hadd.ends.not_chain, hadd.ends, hadd.infeasible⟩

/-- Once a byte is said not to be 5, a disjunction that it may be 5 turns into a conjunction, which is added
again and split. -/
theorem additions_end_disjunction :
    let x (n : Nat) : Expr := .read (.base (.symbolic "x" 2)) (.const n 32)
    let isFive : Expr := .compare .eq (.const 5 8) (x 0)
    let small : Expr := .binary .and (.compare .ult (x 1) (.const 10 8)) (.compare .ule (x 1) (x 0))
    ∃ s, [Expr.binary .or isFive small].foldlM add {} = .ok s ∧
      (¬∃ chain : Nat → Addition, chain 0 = ⟨s, [.add (.compare .eq (.bool false) isFive)]⟩ ∧
        ∀ n, (chain n).step? = some (.ok (chain (n + 1)))) ∧
      ∃ s', Ends ⟨s, [.add (.compare .eq (.bool false) isFive)]⟩ (.ok s') := by
  intro x isFive small
  have hdisjunction : (Expr.binary .or isFive small).IsTruth := by simp [Expr.IsTruth, isFive, small, x]
  have hnot : (Expr.compare .eq (.bool false) isFive).IsTruth := by
    simp [Expr.IsTruth, isFive, x, Expr.bool]
  have hzero : (Assignment.mk true {}).satisfies?
      [.binary .or isFive small, .compare .eq (.bool false) isFive] = some true := by decide
  have hholds := Assignment.satisfies?_eq_true.1 hzero
  rw [Assignment.holdsAll_cons] at hholds
  have hall : ∀ c ∈ [Expr.binary .or isFive small], c.IsTruth := by simpa using hdisjunction
  obtain ⟨s, hs⟩ := exists_foldlM_add (a := ⟨true, {}⟩) rfl valid_empty hall Assignment.holdsAll_nil
    (by simpa using hholds.1)
  obtain ⟨hchain, hends, -⟩ := additions_end (fun c hc ↦ (hall c hc).1) hs hnot.1 hnot.2
  have hadded := added_foldlM (fun hs hc ↦ added_of_addWithin hs hc) valid_empty (fun c hc ↦ (hall c hc).1) hs
  obtain ⟨s', hs'⟩ := exists_addWithin (a := ⟨true, {}⟩) rfl hadded.valid hnot
    ((hadded.holds_iff rfl).2 ⟨Assignment.holdsAll_nil, by simpa using hholds.1⟩)
    (hholds.2 _ (by simp)) (Nat.lt_succ_self _)
  exact ⟨s, hs, hchain, s', hs' ▸ hends⟩

end ConstraintSet

end Symex
