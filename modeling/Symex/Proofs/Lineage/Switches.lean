import Symex.Proofs.Answers
import Symex.Proofs.Calls.Pointers
import Symex.Proofs.Heap.Reallocations
import Symex.Proofs.Lineage.Jumps

namespace Symex

open Checked

variable {σ β γ : Type} {I : Inputs} {F : Fault → Prop} {c : ConstraintSet} {a : Assignment} {width n : Nat}
  {cases : List (Nat × BlockId)} {otherwise : BlockId} {value condition : Expr}
  {targets : List (BlockId × Expr)}

/-! ## Targets -/

def switchBlock (width : Nat) (cases : List (Nat × BlockId)) (otherwise : BlockId) (n : Nat) : BlockId :=
  ((cases.find? fun (case, _) ↦ Bits.trunc width case = n).map (·.2)).getD otherwise

theorem leads_switchBlock : Leads width cases otherwise n (switchBlock width cases otherwise n) := by
  unfold switchBlock
  cases h : cases.find? fun (case, _) ↦ decide (Bits.trunc width case = n) with
  | none => exact .inr ⟨fun p hp ↦ by simpa using List.find?_eq_none.1 h p hp, rfl⟩
  | some p => exact .inl ⟨p, List.mem_of_find?_eq_some h, by simpa using List.find?_some h, rfl⟩

namespace Expr

variable {l r : Expr}

theorem exists_mkAnd (hl : l.IsTruth) (hr : r.IsTruth) : ∃ e, mkAnd l r = .ok e ∧ e.IsTruth ∧
    ∀ a : Assignment, a.free → (a.val e ≠ 0 ↔ a.val l ≠ 0 ∧ a.val r ≠ 0) :=
  have h := mkBinary_eq_ok.2 ⟨hl.2.trans hr.2.symm, rfl⟩
  ⟨_, h, (safe_mkAnd hl hr).of_eq h⟩

theorem exists_mkOr (hl : l.IsTruth) (hr : r.IsTruth) : ∃ e, mkOr l r = .ok e ∧ e.IsTruth ∧
    ∀ a : Assignment, a.free → (a.val e ≠ 0 ↔ a.val l ≠ 0 ∨ a.val r ≠ 0) :=
  have h := mkBinary_eq_ok.2 ⟨hl.2.trans hr.2.symm, rfl⟩
  ⟨_, h, (safe_mkOr hl hr).of_eq h⟩

end Expr

def Targeted (targets : List (BlockId × Expr)) (a : Assignment) : Prop := ∃ t ∈ targets, a.val t.2 ≠ 0

theorem exists_joinTarget (htruths : ∀ t ∈ targets, t.2.IsTruth) (htruth : condition.IsTruth) (block : BlockId) :
    ∃ r, (targets.mapM fun (b, c) ↦ do
      if b = block then return (b, ← Expr.mkOr c condition) else return (b, c)) = Except.ok r ∧
        ∀ a : Assignment, a.free → (Targeted targets a → Targeted r a) ∧
          ((∃ t ∈ targets, t.1 = block) → a.val condition ≠ 0 → Targeted r a) := by
  induction targets with
  | nil => exact ⟨[], rfl, fun a _ ↦ ⟨id, by rintro ⟨t, ⟨⟩, -⟩⟩⟩
  | cons t rest ih =>
    obtain ⟨b, e⟩ := t
    rw [List.forall_mem_cons] at htruths
    obtain ⟨r, hr, hreached⟩ := ih htruths.2
    have hjoin : ∃ e', (do
        if b = block then return (b, ← Expr.mkOr e condition) else return (b, e) :
          Checked (BlockId × Expr)) = .ok (b, e') ∧ ∀ a : Assignment, a.free →
            (a.val e ≠ 0 → a.val e' ≠ 0) ∧ (b = block → a.val condition ≠ 0 → a.val e' ≠ 0) := by
      split
      · obtain ⟨e', he', -, hval⟩ := Expr.exists_mkOr htruths.1 htruth
        refine ⟨e', by rw [he']; rfl, fun a ha ↦ ⟨fun h ↦ (hval a ha).2 (.inl h), fun _ h ↦ ?_⟩⟩
        exact (hval a ha).2 (.inr h)
      · exact ⟨e, rfl, fun a _ ↦ ⟨id, fun h ↦ absurd h ‹_›⟩⟩
    obtain ⟨e', he', hval⟩ := hjoin
    refine ⟨(b, e') :: r, ?_, fun a ha ↦ ⟨?_, ?_⟩⟩
    · rw [List.mapM_cons, hr]
      dsimp only
      rw [he']
      rfl
    · rintro ⟨t, ht, hholds⟩
      obtain rfl | ht := List.mem_cons.1 ht
      · exact ⟨_, List.mem_cons_self, (hval a ha).1 hholds⟩
      · obtain ⟨t, ht, hholds⟩ := (hreached a ha).1 ⟨t, ht, hholds⟩
        exact ⟨t, List.mem_cons_of_mem _ ht, hholds⟩
    · rintro ⟨t, ht, hblock⟩ hholds
      obtain rfl | ht := List.mem_cons.1 ht
      · exact ⟨_, List.mem_cons_self, (hval a ha).2 hblock hholds⟩
      · obtain ⟨t, ht, hholds⟩ := (hreached a ha).2 ⟨t, ht, hblock⟩ hholds
        exact ⟨t, List.mem_cons_of_mem _ ht, hholds⟩

theorem exists_addTarget (htruths : ∀ t ∈ targets, t.2.IsTruth) (htruth : condition.IsTruth) (block : BlockId) :
    ∃ r, Exec.addTarget targets block condition = .ok r ∧
      ∀ a : Assignment, a.free → Targeted targets a ∨ a.val condition ≠ 0 → Targeted r a := by
  unfold Exec.addTarget
  split
  · rename_i hany
    obtain ⟨r, hr, hreached⟩ := exists_joinTarget htruths htruth block
    have hthere : ∃ t ∈ targets, t.1 = block := by simpa using hany
    exact ⟨r, hr, fun a ha h ↦ h.elim (hreached a ha).1 ((hreached a ha).2 hthere)⟩
  · refine ⟨_, rfl, fun a _ h ↦ ?_⟩
    obtain ⟨t, ht, hholds⟩ | hholds := h
    · exact ⟨t, List.mem_append_left _ ht, hholds⟩
    · exact ⟨(block, condition), by simp, hholds⟩

/-- What is known of the targets when some cases are left: each of the solutions has one, or has a value that is
none of the cases so far. -/
structure Gathered (I : Inputs) (c : ConstraintSet) (value : Expr) (cases : List (Nat × BlockId))
    (otherwise : BlockId) (rest : List (Nat × BlockId)) (p : List (BlockId × Expr) × Expr) : Prop where
  mem : ∀ q ∈ rest, q ∈ cases
  targets : Targets (fun block a ↦ Leads value.width cases otherwise (a.val value) block) p.1
  reachable : Exec.Reachable I.trusted c p.1
  truth : p.2.IsTruth
  others : ∀ a : Assignment, a.free → a.val p.2 ≠ 0 →
    ∀ q ∈ cases, q ∈ rest ∨ Bits.trunc value.width q.1 ≠ a.val value
  covered : ∀ a, I.Solves a c → Targeted p.1 a ∨ a.val p.2 ≠ 0

theorem Gathered.exists_add {rest : List (Nat × BlockId)} {others : Expr}
    (h : Gathered I c value cases otherwise rest (targets, others)) (htruth : condition.IsTruth)
    (hsat : ∃ a, I.Solves a c ∧ a.val condition ≠ 0) (block : BlockId)
    (hleads : ∀ a : Assignment, a.free → a.val condition ≠ 0 →
      Leads value.width cases otherwise (a.val value) block) :
    ∃ r, Exec.addTarget targets block condition = .ok r ∧
      Targets (fun block a ↦ Leads value.width cases otherwise (a.val value) block) r ∧
        Exec.Reachable I.trusted c r ∧
          ∀ a : Assignment, a.free → Targeted targets a ∨ a.val condition ≠ 0 → Targeted r a := by
  obtain ⟨r, hr, hreached⟩ := exists_addTarget h.targets.truth htruth block
  have hreachable := (Exec.safe_addTarget h.reachable htruth fun _ ↦ hsat).of_eq hr
  exact ⟨r, hr, (h.targets.safe_add htruth hleads).of_eq hr, hreachable.1, hreached⟩

namespace Exec

variable {f : Focus σ}

theorem ends_forIn {body : γ → β → Exec σ (ForInStep β)} {l : List γ} {b : β} {J : List γ → β → Focus σ → Prop}
    (h : J l b f) (hstep : ∀ x rest b f, J (x :: rest) b f →
      (body x b).Ends F f fun r f' ↦ ∃ b', r = .ok (.yield b') ∧ J rest b' f') :
    (forIn l b body : Exec σ β).Ends F f fun r f' ↦ ∃ b', r = .ok b' ∧ J [] b' f' := by
  induction l generalizing b f with
  | nil => exact ends_pure ⟨b, rfl, h⟩
  | cons x l ih =>
    rw [List.forIn_cons]
    refine ends_bind (hstep x l b f h) ?_ ?_
    · rintro _ f' ⟨b', ⟨⟩, h'⟩
      exact ih h'
    · rintro _ _ ⟨_, ⟨⟩, -⟩

theorem ends_switchTargets (hvalid : f.state.constraints.Valid) (hsat : I.Satisfiable f.state.constraints)
    (hexact : f.executor.solver.backend.Exact I False) (hvalue : value.WellFormed) :
    (switchTargets value otherwise cases).Ends F f fun r f' ↦ ∃ targets solver, r = .ok targets ∧
      f.executor.solver.Same solver ∧ f' = f.withSolver solver ∧
        Symex.Targets (fun block a ↦ Leads value.width cases otherwise (a.val value) block) targets ∧
          Reachable I.trusted f.state.constraints targets ∧
            ∀ a, I.Solves a f.state.constraints → Targeted targets a := by
  have hask : ∀ {solver : Solver σ} {e : Expr} {P : Except PathError Bool → Focus σ → Prop},
      f.executor.solver.Same solver → e.IsTruth →
      (∀ b solver', f.executor.solver.Same solver' → (b = true ↔ ∃ a, I.Solves a f.state.constraints ∧ a.val e ≠ 0) →
        P (.ok b) (f.withSolver solver')) → (query (Solver.mayBeTrue · e)).Ends F (f.withSolver solver) P := by
    intro solver e P hsame he h
    exact ends_query (Solver.answers_mayBeTrue hvalid hsat he.1) (hsame.backend_eq ▸ hexact)
      (fun b solver' hsame' hb ↦ h b solver' (hsame.trans hsame') hb) fun _ _ h ↦ h.elim
  have hrange := Expr.WellFormed.width_range hvalue
  refine ends_bind (ends_forIn (J := fun rest p f' ↦
    (∃ solver, f.executor.solver.Same solver ∧ f' = f.withSolver solver) ∧
      Gathered I f.state.constraints value cases otherwise rest p) ?_ ?_) ?_ ?_
  · refine ⟨⟨f.executor.solver, .refl _, rfl⟩, fun q hq ↦ by simpa using hq, ⟨by simp, by simp, .nil⟩, by simp,
      ⟨Expr.bool_wellFormed true, rfl⟩, fun a _ _ q hq ↦ .inl (by simpa using hq),
      fun a _ ↦ .inr (by simp [Expr.bool])⟩
  · rintro ⟨case, block⟩ rest ⟨targets, others⟩ _ ⟨⟨solver, hsame, rfl⟩, h⟩
    have hmem := List.forall_mem_cons.1 h.mem
    have hconstant : Expr.constant case value.width = .ok (Expr.word case value.width) := by
      rw [Expr.constant, maxWidth_eq, demand_of hrange]
      rfl
    obtain ⟨hnumber, hval⟩ := (Expr.safe_constant_val case value.width).of_eq hconstant
    obtain ⟨same, hsame', hmeans⟩ := Expr.exists_mkEq hvalue hnumber rfl
    obtain ⟨others', hothers', htruth', hboth⟩ := Expr.exists_mkAnd h.truth hmeans.truth.isZero
    have hiff : ∀ a : Assignment, a.free → (a.val same ≠ 0 ↔ Bits.trunc value.width case = a.val value) := by
      intro a ha
      rw [hmeans.val_iff ha, hval, eq_comm]
    have hzero : ∀ a : Assignment, a.free → (a.val same.isZero ≠ 0 ↔ a.val same = 0) := fun a ha ↦ by
      simp [Expr.val_isZero ha hmeans.truth.1]
    refine ends_seq (ends_lift (Checked.ends_of_eq hconstant ?_))
    refine ends_seq (ends_lift (Checked.ends_of_eq hsame' ?_))
    refine ends_seq (ends_lift (Checked.ends_of_eq hothers' ?_))
    refine ends_seq (hask hsame hmeans.truth fun possible solver' hsame'' hpossible ↦ ?_)
    have hleft : ∀ a : Assignment, a.free → a.val others' ≠ 0 →
        ∀ q ∈ cases, q ∈ rest ∨ Bits.trunc value.width q.1 ≠ a.val value := by
      intro a ha hholds q hq
      obtain ⟨hold, hnew⟩ := (hboth a ha).1 hholds
      obtain hq | hq := h.others a ha hold q hq
      · obtain rfl | hq := List.mem_cons.1 hq
        · exact .inr fun heq ↦ (hiff a ha).2 heq ((hzero a ha).1 hnew)
        · exact .inl hq
      · exact .inr hq
    cases possible with
    | true =>
      obtain ⟨r, hr, htargets, hreachable, hreached⟩ := h.exists_add hmeans.truth (hpossible.1 rfl) block
        fun a ha hholds ↦ .inl ⟨(case, block), hmem.1, (hiff a ha).1 hholds, rfl⟩
      refine ends_seq (ends_lift (Checked.ends_of_eq hr (ends_pure ⟨_, rfl, ⟨solver', hsame'', rfl⟩, hmem.2, htargets,
        hreachable, htruth', hleft, fun a ha ↦ ?_⟩)))
      by_cases hholds : a.val same = 0
      · exact (h.covered a ha).imp (fun h ↦ hreached a ha.free (.inl h)) fun hold ↦
          (hboth a ha.free).2 ⟨hold, (hzero a ha.free).2 hholds⟩
      · exact .inl (hreached a ha.free (.inr hholds))
    | false =>
      refine ends_pure ⟨_, rfl, ⟨solver', hsame'', rfl⟩, hmem.2, h.targets, h.reachable, htruth', hleft,
        fun a ha ↦ ?_⟩
      have hnever : a.val same = 0 := by
        by_contra hholds
        exact Bool.false_ne_true (hpossible.2 ⟨a, ha, hholds⟩)
      exact (h.covered a ha).imp_right fun hold ↦ (hboth a ha.free).2 ⟨hold, (hzero a ha.free).2 hnever⟩
  · rintro ⟨targets, others⟩ _ ⟨_, ⟨⟩, ⟨solver, hsame, rfl⟩, h⟩
    refine ends_seq (hask hsame h.truth fun possible solver' hsame' hpossible ↦ ?_)
    have hleads : ∀ a : Assignment, a.free → a.val others ≠ 0 →
        Leads value.width cases otherwise (a.val value) otherwise := fun a ha hholds ↦
      .inr ⟨fun q hq ↦ (h.others a ha hholds q hq).resolve_left List.not_mem_nil, rfl⟩
    dsimp only
    split
    · rename_i hpossible'
      have hsome : ∃ a, I.Solves a f.state.constraints ∧ a.val others ≠ 0 := by
        obtain hp | hempty := Bool.or_eq_true_iff.1 hpossible'
        · exact hpossible.1 hp
        · obtain ⟨a, ha⟩ := hsat
          refine ⟨a, ha, (h.covered a ha).resolve_left ?_⟩
          rintro ⟨t, ht, -⟩
          rw [List.isEmpty_iff.1 hempty] at ht
          cases ht
      obtain ⟨r, hr, htargets, hreachable, hreached⟩ := h.exists_add h.truth hsome otherwise hleads
      exact ends_seq (ends_lift (Checked.ends_of_eq hr (ends_pure ⟨r, solver', rfl, hsame', rfl, htargets, hreachable,
        fun a ha ↦ hreached a ha.free (h.covered a ha)⟩)))
    · rename_i hpossible'
      refine ends_pure ⟨targets, solver', rfl, hsame', rfl, h.targets, h.reachable, fun a ha ↦ ?_⟩
      refine (h.covered a ha).resolve_right fun hholds ↦ hpossible' ?_
      rw [hpossible.2 ⟨a, ha, hholds⟩, Bool.true_or]
  · rintro _ _ ⟨_, ⟨⟩, -⟩

end Exec

/-! ## Copies -/

namespace Focus

/-- The focus before the copy of the state at a place becomes live. -/
def budding (f : Focus σ) (b : Branch) (s : State) (left : Option NodeId) (tree : ProcessTree) : Focus σ :=
  f.back b ⟨{ (f.view b s).executor with
      nextStateId := f.executor.nextStateId + 1
      added := f.executor.added ++ [f.executor.nextStateId], tree },
    s.divided s.id left s.constraints true true⟩

theorem stateAt?_insert {f : Focus σ} {b : Branch} {s : State} {id : StateId} (h : b ≠ .forked id) :
    Focus.stateAt? ⟨{ f.executor with states := f.executor.states.insert id s }, f.state⟩ b = f.stateAt? b := by
  cases b with
  | current => rfl
  | forked id' =>
    dsimp only [stateAt?]
    rw [getElem?_insert_state, if_neg fun heq ↦ h (by rw [heq])]

/-- The state at a place became two, and nothing else changed. -/
structure Budded (b : Branch) (s s₁ s₂ : State) (f f' : Focus σ) : Prop where
  continues : f.executor.Continues f'.executor
  next_eq : f'.executor.nextStateId = f.executor.nextStateId + 1
  removed_eq : f'.executor.removed = f.executor.removed
  first : f'.stateAt? b = some s₁
  second : f'.stateAt? (.forked f.executor.nextStateId) = some s₂
  other : ∀ b', b' ≠ b → f.Given b' → f'.stateAt? b' = f.stateAt? b'
  halves : f.executor.tree.Halves s.node s₁.node s₂.node f'.executor.tree

end Focus

namespace Exec

variable {f : Focus σ} {b : Branch} {s : State}

theorem ends_duplicate (hs : f.stateAt? b = some s) (hb : f.Given b)
    (hleaf : ∀ n, s.node = some n → f.executor.tree.isLeaf n = true) :
    (duplicate b).Ends F f fun r f' ↦ r = .ok (.forked f.executor.nextStateId) ∧ ∃ left right,
      Focus.Budded b s (s.divided s.id left s.constraints true true)
        (s.divided f.executor.nextStateId right s.constraints true true) f f' := by
  have hinsert : ∀ {left right tree}, f.executor.tree.Halves s.node left right tree →
      (do
        insertState (s.divided f.executor.nextStateId right s.constraints true true)
        return .forked (s.divided f.executor.nextStateId right s.constraints true true).id :
          Exec σ Branch).Ends F (f.budding b s left tree) fun r f' ↦
            r = .ok (.forked f.executor.nextStateId) ∧ ∃ left right,
              Focus.Budded b s (s.divided s.id left s.constraints true true)
                (s.divided f.executor.nextStateId right s.constraints true true) f f' := by
    intro left right tree hhalves
    have hworked : f.Worked b s.id (f.budding b s left tree) := Focus.Advanced.worked
      ⟨⟨rfl, rfl, rfl, rfl, rfl, .refl _, rfl, .refl _, Nat.le_succ _, Nat.le_refl _, fun _ ↦ id, [],
        (List.append_nil _).symm, fun _ ↦ .inl⟩, fun _ _ ↦ rfl, fun _ ↦ .inl⟩
    have hne : ∀ b', f.Given b' → b' ≠ .forked f.executor.nextStateId := by
      rintro _ hgiven rfl
      exact Nat.lt_irrefl _ hgiven
    refine ends_bind_ok rfl (ends_pure ⟨rfl, left, right, ⟨rfl, rfl, rfl, rfl, rfl, .refl _, rfl, .refl _,
      Nat.le_succ _, Nat.le_refl _, fun _ ↦ id, [], (List.append_nil _).symm, fun _ ↦ .inl⟩, rfl, rfl, ?_, ?_, ?_,
      hhalves⟩)
    · exact (Focus.stateAt?_insert (hne b hb)).trans (Focus.stateAt?_back ..)
    · exact Std.TreeMap.getElem?_insert_self
    · intro b' hother hgiven
      exact (Focus.stateAt?_insert (hne b' hgiven)).trans (hworked.stateAt?_eq b' hother hgiven)
  cases b with
  | current =>
    obtain rfl := Option.some.inj hs
    exact ends_seq (ends_spawn hleaf fun left right tree hhalves ↦ hinsert hhalves)
  | forked id =>
    refine ends_bind (P := fun r k ↦ ∃ left right tree, f.executor.tree.Halves s.node left right tree ∧
      r = .ok (some (s.divided f.executor.nextStateId right s.constraints true true)) ∧
        k = f.budding (.forked id) s left tree) (ends_visit (fun hnone ↦ nomatch hnone.symm.trans hs) fun s' hs' ↦ ?_)
      ?_ ?_
    · obtain rfl : s' = s := Option.some.inj (hs'.symm.trans hs)
      exact ends_spawn hleaf fun left right tree hhalves ↦ ⟨left, right, tree, hhalves, rfl, rfl⟩
    · rintro _ _ ⟨left, right, tree, hhalves, ⟨⟩, rfl⟩
      exact ends_bind_ok rfl (hinsert hhalves)
    · rintro _ _ ⟨_, _, _, -, ⟨⟩, -⟩

/-- The state of `g` became copies of it, one at each of the places. -/
structure Fanned (I : Inputs) (g : Focus σ) (l : List Branch) (f : Focus σ) : Prop where
  continues : g.executor.Continues f.executor
  removed_lt : ∀ id ∈ f.executor.removed, id < f.executor.nextStateId
  nodup : l.Nodup
  result_iff : ∀ b, g.Result f b ↔ b ∈ l
  copies : ∀ b ∈ l, ∃ s, Untouched I g f b s ∧ s.constraints = g.state.constraints
  apart : ∀ b ∈ l, ∀ b' ∈ l, ∀ s s' n, f.stateAt? b = some s → f.stateAt? b' = some s' → s.node = some n →
    s'.node = some n → b = b'

section

variable {g f' : Focus σ} {l : List Branch} {left right : Option NodeId}

theorem Fanned.bud (h : Fanned I g l f) (hb : b ∈ l) (hs : f.stateAt? b = some s)
    (hbud : Focus.Budded b s (s.divided s.id left s.constraints true true)
      (s.divided f.executor.nextStateId right s.constraints true true) f f') :
    Fanned I g (l ++ [.forked f.executor.nextStateId]) f' := by
  have hnext : g.executor.nextStateId ≤ f.executor.nextStateId := h.continues.next_le
  have hresult : ∀ {b'}, b' ∈ l → g.Result f b' := (h.result_iff _).2
  have hnew : .forked f.executor.nextStateId ∉ l := fun hmem ↦ Nat.lt_irrefl _ (hresult hmem).2
  have hold : ∀ b' s', b' ∈ l → f.stateAt? b' = some s' →
      Untouched I g f b' s' ∧ s'.constraints = g.state.constraints := by
    intro b' s' hb' hs'
    obtain ⟨s'', huntouched, hc⟩ := h.copies b' hb'
    obtain rfl := Option.some.inj (huntouched.ready.at_eq.symm.trans hs')
    exact ⟨huntouched, hc⟩
  obtain ⟨huntouched, hc⟩ := hold b s hb hs
  have hcases : ∀ b' s', b' ∈ l ++ [.forked f.executor.nextStateId] → f'.stateAt? b' = some s' →
      (b' ≠ b ∧ b' ∈ l ∧ f.stateAt? b' = some s') ∨ (b' = b ∧ s' = s.divided s.id left s.constraints true true) ∨
        b' = .forked f.executor.nextStateId ∧
          s' = s.divided f.executor.nextStateId right s.constraints true true := by
    intro b' s' hb' hs'
    obtain hb' | hb' := List.mem_append.1 hb'
    · by_cases heq : b' = b
      · subst heq
        exact .inr (.inl ⟨rfl, Option.some.inj (hs'.symm.trans hbud.first)⟩)
      · exact .inl ⟨heq, hb', (hbud.other b' heq (hresult hb').given).symm.trans hs'⟩
    · obtain rfl := List.mem_singleton.1 hb'
      exact .inr (.inr ⟨rfl, Option.some.inj (hs'.symm.trans hbud.second)⟩)
  refine ⟨h.continues.trans hbud.continues, fun id hid ↦ ?_, ?_, fun b' ↦ ?_, fun b' hb' ↦ ?_, ?_⟩
  · rw [hbud.next_eq]
    exact Nat.lt_succ_of_lt (h.removed_lt id (hbud.removed_eq ▸ hid))
  · exact List.nodup_append.2 ⟨h.nodup, by simp, fun b' hb' _ hmem ↦ by
      rintro rfl
      exact hnew (List.mem_singleton.1 hmem ▸ hb')⟩
  · rw [Focus.result_succ_iff hnext hbud.next_eq, h.result_iff, List.mem_append, List.mem_singleton]
  · have hready := huntouched.ready
    have hgiven : ∀ {b'}, f.Given b' → f'.Given b' := fun hgiven ↦ hgiven.mono hbud.continues.next_le
    by_cases heq : b' = b
    · subst heq
      exact ⟨_, ⟨huntouched.result.succ hbud.next_eq, ⟨hbud.first, hgiven hready.given, hbud.removed_eq ▸ hready.live,
        hready.valid, hready.satisfiable, fun n hn ↦ (hbud.halves.leaf n (.inl hn)).1, hready.enabled⟩,
        huntouched.id_eq, huntouched.data.trans (State.sameData_divided ..)⟩, hc⟩
    · obtain hb' | hb' := List.mem_append.1 hb'
      · obtain ⟨s', huntouched', hc'⟩ := h.copies b' hb'
        have hready' := huntouched'.ready
        refine ⟨s', ⟨huntouched'.result.succ hbud.next_eq, ⟨(hbud.other b' heq hready'.given).trans hready'.at_eq,
          hgiven hready'.given, hbud.removed_eq ▸ hready'.live, hready'.valid, hready'.satisfiable, fun n hn ↦ ?_,
          hready'.enabled⟩, huntouched'.id_eq, huntouched'.data⟩, hc'⟩
        exact hbud.halves.kept n (hready'.leaf n hn) fun hnode ↦
          heq (h.apart b' hb' b hb s' s n hready'.at_eq hs hn hnode)
      · obtain rfl := List.mem_singleton.1 hb'
        have hlt : f.executor.nextStateId < f'.executor.nextStateId := hbud.next_eq ▸ Nat.lt_succ_self _
        refine ⟨_, ⟨⟨hnext, hlt⟩, ⟨hbud.second, hlt, fun hid ↦ ?_, hready.valid, hready.satisfiable,
          fun n hn ↦ (hbud.halves.leaf n (.inr hn)).1, hready.enabled⟩, rfl,
          huntouched.data.trans (State.sameData_divided ..)⟩, hc⟩
        exact Nat.lt_irrefl _ (h.removed_lt _ (hbud.removed_eq ▸ hid))
  · -- a node of before is not one of those that were added
    have hcross : ∀ {b' s' n}, b' ∈ l → f.stateAt? b' = some s' → s'.node = some n →
        left ≠ some n ∧ right ≠ some n := by
      intro b' s' n hb' hs' hn
      have hlt := ProcessTree.lt_size_of_isLeaf ((hold b' s' hb' hs').1.ready.leaf n hn)
      exact ⟨fun hl ↦ Nat.not_le_of_lt hlt (hbud.halves.leaf n (.inl hl)).2,
        fun hr ↦ Nat.not_le_of_lt hlt (hbud.halves.leaf n (.inr hr)).2⟩
    intro b₁ hb₁ b₂ hb₂ s₁ s₂ n hs₁ hs₂ hn₁ hn₂
    obtain ⟨-, hl₁, hs₁⟩ | ⟨rfl, rfl⟩ | ⟨rfl, rfl⟩ := hcases b₁ s₁ hb₁ hs₁
    · obtain ⟨-, hl₂, hs₂⟩ | ⟨rfl, rfl⟩ | ⟨rfl, rfl⟩ := hcases b₂ s₂ hb₂ hs₂
      · exact h.apart b₁ hl₁ b₂ hl₂ s₁ s₂ n hs₁ hs₂ hn₁ hn₂
      · exact ((hcross hl₁ hs₁ hn₁).1 hn₂).elim
      · exact ((hcross hl₁ hs₁ hn₁).2 hn₂).elim
    · obtain ⟨-, hl₂, hs₂⟩ | ⟨rfl, -⟩ | ⟨rfl, rfl⟩ := hcases b₂ s₂ hb₂ hs₂
      · exact ((hcross hl₂ hs₂ hn₂).1 hn₁).elim
      · rfl
      · exact (hbud.halves.apart n hn₁ hn₂).elim
    · obtain ⟨-, hl₂, hs₂⟩ | ⟨rfl, rfl⟩ | ⟨rfl, -⟩ := hcases b₂ s₂ hb₂ hs₂
      · exact ((hcross hl₂ hs₂ hn₂).2 hn₁).elim
      · exact (hbud.halves.apart n hn₂ hn₁).elim
      · rfl

end

variable {g : Focus σ}

theorem fanned_current (hg : g.Workable I) : Fanned I g [.current] g where
  continues := .refl _
  removed_lt := hg.removed_lt
  nodup := List.nodup_singleton _
  result_iff b := by
    cases b with
    | current => simp [Focus.Result]
    | forked id => simp [Focus.Result]
  copies := by
    rintro _ hb
    obtain rfl := List.mem_singleton.1 hb
    exact ⟨g.state, ⟨trivial, hg.ready, rfl, .refl _⟩, rfl⟩
  apart b hb b' hb' _ _ _ _ _ _ _ := (List.mem_singleton.1 hb).trans (List.mem_singleton.1 hb').symm

theorem ends_duplicate_fanned {l : List Branch} (h : Fanned I g l f) (hb : b ∈ l) :
    (duplicate b).Ends F f fun r f' ↦ ∃ b', r = .ok b' ∧ Fanned I g (l ++ [b']) f' := by
  obtain ⟨s, huntouched, -⟩ := h.copies b hb
  have hready := huntouched.ready
  refine (ends_duplicate hready.at_eq hready.given hready.leaf).mono ?_
  rintro _ f' ⟨rfl, left, right, hbud⟩
  exact ⟨_, rfl, h.bud hb hready.at_eq hbud⟩

theorem Fanned.counted {l : List Branch} (h : Fanned I g l f) (rng : Rng) (statistics : Statistics) :
    Fanned I g l { f with executor := { f.executor with rng, statistics } } where
  continues := h.continues.trans ⟨rfl, rfl, rfl, rfl, rfl, .refl _, rfl, .refl _, Nat.le_refl _, Nat.le_refl _,
    fun _ ↦ id, [], (List.append_nil _).symm, fun _ ↦ .inl⟩
  removed_lt := h.removed_lt
  nodup := h.nodup
  result_iff b := by
    rw [← h.result_iff b]
    cases b <;> exact .rfl
  copies b hb := by
    obtain ⟨s, huntouched, hc⟩ := h.copies b hb
    have hready := huntouched.ready
    refine ⟨s, ⟨huntouched.result.of_eq rfl, ⟨?_, hready.given.mono (Nat.le_refl _), hready.live, hready.valid,
      hready.satisfiable, hready.leaf, hready.enabled⟩, huntouched.id_eq, huntouched.data⟩, hc⟩
    rw [← hready.at_eq]
    cases b <;> rfl
  apart b hb b' hb' s s' n hs hs' := by
    refine h.apart b hb b' hb' s s' n ?_ ?_
    · rw [← hs]
      cases b <;> rfl
    · rw [← hs']
      cases b' <;> rfl

theorem ends_draw_fanned {d : Rng → β × Rng} {l : List Branch} (h : Fanned I g l f) :
    (draw d).Ends F f fun r f' ↦ (∀ e, r ≠ .error e) ∧ Fanned I g l f' :=
  ends_draw ⟨nofun, h.counted _ f.executor.statistics⟩

theorem ends_copies_fanned (n : List Nat) {all : Array Branch} (h : Fanned I g all.toList f)
    (hcurrent : .current ∈ all.toList) :
    (n.foldlM (fun (all : Array Branch) i ↦ do
      let parent ← draw (·.index (i + 1))
      return all.push (← duplicate (all[parent]?.getD .current))) all : Exec σ _).Ends F f fun r f' ↦
        ∃ all' : Array Branch, r = .ok all' ∧ all'.size = all.size + n.length ∧ Fanned I g all'.toList f' := by
  induction n generalizing all f with
  | nil => exact ends_pure ⟨all, rfl, rfl, h⟩
  | cons i n ih =>
    rw [List.foldlM_cons]
    refine ends_bind (P := fun r f' ↦ ∃ b, r = .ok (all.push b) ∧ Fanned I g (all.push b).toList f') ?_ ?_ ?_
    · refine ends_bind (ends_draw_fanned h) (fun parent f' h' ↦ ?_) fun e _ h' ↦ absurd rfl (h'.1 e)
      have hmem : all[parent]?.getD .current ∈ all.toList := by
        cases hp : all[parent]? with
        | none => exact hcurrent
        | some b => exact Array.mem_def.1 (Array.mem_of_getElem? hp)
      refine ends_bind (ends_duplicate_fanned h'.2 hmem) ?_ ?_
      · rintro b f'' ⟨_, ⟨⟩, h''⟩
        exact ends_pure ⟨b, rfl, by rwa [Array.toList_push]⟩
      · rintro _ _ ⟨_, ⟨⟩, -⟩
    · rintro _ f' ⟨b, ⟨⟩, h'⟩
      refine (ih h' (by simp [hcurrent])).mono ?_
      rintro _ f'' ⟨all', rfl, hsize, h''⟩
      refine ⟨all', rfl, ?_, h''⟩
      rw [hsize, Array.size_push, List.length_cons]
      omega
    · rintro _ _ ⟨_, ⟨⟩, -⟩

theorem ends_arms_fanned (hg : g.Workable I) {count : Nat} (hcount : 0 < count) :
    (arms count).Ends F g fun r f ↦ ∃ l, r = .ok (l.map some) ∧ l.length = count ∧ Fanned I g l f := by
  have hinhibited := hg.unrestrained.not_inhibited hg.able.enabled
  obtain ⟨b, hb, hiff⟩ := run_forkInhibited g
  obtain rfl : b = false := by simpa using fun h ↦ hinhibited (hiff.1 h)
  refine ends_bind_ok hb ?_
  rw [if_neg (by simp)]
  refine ends_bind_ok rfl (ends_bind (ends_copies_fanned (List.range (count - 1))
    ((fanned_current hg).counted g.executor.rng _) (List.mem_singleton_self _)) ?_ ?_)
  · rintro all f ⟨_, ⟨⟩, hsize, h⟩
    refine ends_pure ⟨all.toList, rfl, ?_, h⟩
    rw [Array.length_toList, hsize, List.length_range, List.size_toArray, List.length_singleton]
    omega
  · rintro _ _ ⟨_, ⟨⟩, -⟩

end Exec

/-! ## Arms -/

/-- Nothing but the states differs from what the machine `e` has. -/
def Focus.Resembles (f : Focus σ) (e : Executor σ) : Prop := { f.executor with states := e.states } = e

theorem Focus.Resembles.refl (f : Focus σ) : f.Resembles f.executor := rfl

theorem Focus.Resembles.removed_eq {f : Focus σ} {e : Executor σ} (h : f.Resembles e) :
    f.executor.removed = e.removed :=
  (congrArg Executor.removed h :)

namespace Exec

variable {e : Executor σ} {f g : Focus σ} {l : List Branch} {t : Thread}

theorem ends_eachSide {xs : List γ} {work : γ → Exec σ Unit}
    {body : Option Branch × γ → PUnit → Exec σ (ForInStep PUnit)} {P Q : Branch × γ → State → Prop}
    (hbody : ∀ b x u, body (some b, x) u = onSide (some b) (work x) >>= fun _ ↦ pure (.yield ⟨⟩))
    (hlive : ∀ q s, P q s → s.id ∉ e.removed) (hnodup : l.Nodup) (hf : f.Resembles e) (hgiven : ∀ b ∈ l, f.Given b)
    (hat : ∀ q ∈ l.zip xs, ∃ s, f.stateAt? q.1 = some s ∧ P q s)
    (hwork : ∀ q ∈ l.zip xs, ∀ f, f.Resembles e → P q f.state → (work q.2).Ends F f fun r f' ↦
      r = .ok () ∧ ∃ s, f' = { f with state := s } ∧ Q q s) :
    (forIn ((l.map some).zip xs) ⟨⟩ body : Exec σ PUnit).Ends F f fun r f' ↦ r = .ok ⟨⟩ ∧ f'.Resembles e ∧
      (∀ b, b ∉ l → f.Given b → f'.stateAt? b = f.stateAt? b) ∧
        ∀ q ∈ l.zip xs, ∃ s, f'.stateAt? q.1 = some s ∧ Q q s := by
  induction l generalizing xs f with
  | nil => exact ends_pure ⟨rfl, hf, fun _ _ _ ↦ rfl, by simp⟩
  | cons b l ih =>
    cases xs with
    | nil => exact ends_pure ⟨rfl, hf, fun _ _ _ ↦ rfl, by simp⟩
    | cons x xs =>
      simp only [List.zip_cons_cons, List.forall_mem_cons] at hat hwork hgiven
      obtain ⟨hb, hl⟩ := List.nodup_cons.1 hnodup
      obtain ⟨⟨s, hs, hP⟩, hat⟩ := hat
      have hview : (f.view b s).Resembles e := hf
      have hside : (onSide (some b) (work x)).Ends F f fun r f' ↦
          r = .ok () ∧ ∃ s', f' = f.back b ⟨(f.view b s).executor, s'⟩ ∧ Q (b, x) s' := by
        refine ends_bind (P := fun r f' ↦ ∃ o s', r = .ok o ∧ f' = f.back b ⟨(f.view b s).executor, s'⟩ ∧ Q (b, x) s')
          (ends_onBranch hs (hf.removed_eq ▸ hlive _ s hP) ((hwork.1 _ hview hP).mono ?_)) ?_
          (by rintro _ _ ⟨_, _, ⟨⟩, -⟩)
        · rintro _ _ ⟨rfl, s', rfl, hQ⟩
          exact ⟨_, s', rfl, rfl, hQ⟩
        · rintro _ _ ⟨_, s', ⟨⟩, rfl, hQ⟩
          exact ends_pure ⟨rfl, s', rfl, hQ⟩
      rw [List.map_cons, List.zip_cons_cons, List.forIn_cons, hbody]
      refine ends_bind (P := fun r f' ↦ r = .ok (.yield ⟨⟩) ∧
        ∃ s', f' = f.back b ⟨(f.view b s).executor, s'⟩ ∧ Q (b, x) s') ?_ ?_ (by rintro _ _ ⟨⟨⟩, -⟩)
      · exact ends_bind hside (fun _ _ h ↦ ends_pure ⟨rfl, h.2⟩) (by rintro _ _ ⟨⟨⟩, -⟩)
      rintro _ _ ⟨⟨⟩, s', rfl, hQ⟩
      -- the other places are as they were
      have hworked : f.Worked b s.id (f.back b ⟨(f.view b s).executor, s'⟩) :=
        Focus.Advanced.worked ⟨.refl _, fun _ _ ↦ rfl, fun _ ↦ .inl⟩
      have hback : (f.back b ⟨(f.view b s).executor, s'⟩).Resembles e := hf
      have hgiven' : ∀ {b'}, f.Given b' → (f.back b ⟨(f.view b s).executor, s'⟩).Given b' := fun h ↦
        h.mono (Nat.le_refl _)
      refine (ih hl hback (fun b' hb' ↦ hgiven' (hgiven.2 b' hb')) (fun q hq ↦ ?_) hwork.2).mono ?_
      · obtain ⟨s₁, hs₁, hP₁⟩ := hat q hq
        have hq' := (List.of_mem_zip hq).1
        exact ⟨s₁, (hworked.stateAt?_eq q.1 (fun heq ↦ hb (heq ▸ hq')) (hgiven.2 q.1 hq')).trans hs₁, hP₁⟩
      · rintro _ f' ⟨rfl, hf', hothers, hdone⟩
        refine ⟨rfl, hf', fun b' hb' hb'' ↦ ?_, ?_⟩
        · exact (hothers b' (List.not_mem_of_not_mem_cons hb') (hgiven' hb'')).trans
            (hworked.stateAt?_eq b' (List.ne_of_not_mem_cons hb') hb'')
        · rw [List.zip_cons_cons, List.forall_mem_cons]
          exact ⟨⟨s', (hothers b hb (hgiven' hgiven.1)).trans (Focus.stateAt?_back ..), hQ⟩, hdone⟩

/-- The state of `g` became one state for each of some things, at a place of its own, which is as `P` says. -/
structure Arrayed (g : Focus σ) (l : List Branch) (xs : List γ) (P : Branch × γ → State → Prop) (f : Focus σ) :
    Prop where
  continues : g.executor.Continues f.executor
  length_eq : l.length = xs.length
  nodup : l.Nodup
  result_iff : ∀ b, g.Result f b ↔ b ∈ l
  copies : ∀ q ∈ l.zip xs, ∃ s, f.stateAt? q.1 = some s ∧ s.id ∉ f.executor.removed ∧ P q s

theorem ends_forArms {xs : List γ} {w : γ → Exec σ Unit}
    {body : Option Branch × γ → PUnit → Exec σ (ForInStep PUnit)} {P Q : Branch × γ → State → Prop}
    (h : Arrayed g l xs P f) (hbody : ∀ b x u, body (some b, x) u = onSide (some b) (w x) >>= fun _ ↦ pure (.yield ⟨⟩))
    (hwork : ∀ q ∈ l.zip xs, ∀ f', f'.Resembles f.executor → P q f'.state → (w q.2).Ends F f' fun r f'' ↦
      r = .ok () ∧ ∃ s, f'' = { f' with state := s } ∧ s.id = f'.state.id ∧ Q q s) :
    (forIn ((l.map some).zip xs) ⟨⟩ body : Exec σ PUnit).Ends F f fun r f' ↦ r = .ok ⟨⟩ ∧ Arrayed g l xs Q f' := by
  have hresult : ∀ b ∈ l, g.Result f b := fun b ↦ (h.result_iff b).2
  have hwork' : ∀ q ∈ l.zip xs, ∀ f', f'.Resembles f.executor → f'.state.id ∉ f.executor.removed ∧ P q f'.state →
      (w q.2).Ends F f' fun r f'' ↦ r = .ok () ∧ ∃ s, f'' = { f' with state := s } ∧
        s.id ∉ f.executor.removed ∧ Q q s := by
    intro q hq f' hf' ⟨hlive, hP⟩
    refine (hwork q hq f' hf' hP).mono ?_
    rintro _ _ ⟨rfl, s, rfl, hid, hQ⟩
    exact ⟨rfl, s, rfl, hid ▸ hlive, hQ⟩
  refine (ends_eachSide hbody (fun _ _ h ↦ h.1) h.nodup (Focus.Resembles.refl f) (fun b hb ↦ (hresult b hb).given)
    h.copies hwork').mono ?_
  rintro _ f' ⟨rfl, hf', -, hcopies⟩
  have hnext : f'.executor.nextStateId = f.executor.nextStateId := (congrArg Executor.nextStateId hf' :)
  refine ⟨rfl, h.continues.trans ?_, h.length_eq, h.nodup, fun b ↦ ?_, hf'.removed_eq ▸ hcopies⟩
  · have hsame : Executor.Continues { f'.executor with states := f.executor.states } f'.executor :=
      ⟨rfl, rfl, rfl, rfl, rfl, .refl _, rfl, .refl _, Nat.le_refl _, Nat.le_refl _, fun _ ↦ id, [],
        (List.append_nil _).symm, fun _ ↦ .inl⟩
    exact hf' ▸ hsame
  · rw [← h.result_iff b]
    exact ⟨fun hb ↦ hb.of_eq hnext.symm, fun hb ↦ hb.of_eq hnext⟩

/-- A copy of the state where the condition holds as well, at a point of its own in the program. -/
structure Directed (I : Inputs) (g : Focus σ) (b : Branch) (condition : Expr) (t : Thread) (s : State) : Prop where
  id_eq : s.id = b.idFrom g.state.id
  solves : ∀ a, I.Solves a s.constraints ↔ I.Solves a g.state.constraints ∧ a.val condition ≠ 0
  thread_eq : s.thread? s.current = some t

theorem ends_branch_arrayed (hg : g.Workable I) (ht : g.state.thread? g.state.current = some t)
    {conditions : List Expr} (hne : conditions ≠ []) (hconditions : ∀ e ∈ conditions, e.IsTruth ∧
      ∃ a, I.Solves a g.state.constraints ∧ a.val e ≠ 0) :
    (branch conditions).Ends F g fun r f ↦ ∃ l, r = .ok (l.map some) ∧
      Arrayed g l conditions (fun q ↦ Directed I g q.1 q.2 t) f := by
  unfold branch
  rw [if_neg (by simpa using hne)]
  refine ends_bind (ends_arms_fanned hg (List.length_pos_iff.2 hne)) ?_ (by rintro _ _ ⟨_, ⟨⟩, -⟩)
  rintro _ f ⟨l, ⟨⟩, hlength, h⟩
  have hunrestrained := hg.unrestrained.continues h.continues
  have hcopies : Arrayed g l conditions (fun q s ↦ s.id = q.1.idFrom g.state.id ∧
      s.constraints = g.state.constraints ∧ s.thread? s.current = some t) f := by
    refine ⟨h.continues, hlength, h.nodup, h.result_iff, fun q hq ↦ ?_⟩
    obtain ⟨s, huntouched, hc⟩ := h.copies q.1 (List.of_mem_zip hq).1
    refine ⟨s, huntouched.ready.at_eq, huntouched.ready.live, huntouched.id_eq, hc, ?_⟩
    rw [State.thread?, huntouched.data.threads_eq, huntouched.data.current_eq]
    exact ht
  refine ends_seq (ends_bind_ok (run_seeds? (hunrestrained.seeds _)) (ends_pure ?_))
  refine ends_bind (ends_forArms (Q := fun q ↦ Directed I g q.1 q.2 t) (w := addConstraint) hcopies
    (fun _ _ _ ↦ rfl) ?_) ?_ (by rintro _ _ ⟨⟨⟩, -⟩)
  · rintro q hq f' hf' ⟨hid, hc, hthread⟩
    obtain ⟨htruth, hsat⟩ := hconditions q.2 (List.of_mem_zip hq).2
    have hseeds : f'.executor.seeds = f.executor.seeds := (congrArg Executor.seeds hf' :)
    refine ends_addConstraint (I := I) (hc ▸ hg.able.valid) htruth (hc ▸ hsat) (hseeds ▸ hunrestrained.seeds _) ?_
    intro c _ hsolves
    exact ⟨rfl, _, rfl, rfl, hid, hc ▸ hsolves, hthread⟩
  · rintro _ f' ⟨⟨⟩, h'⟩
    exact ends_pure ⟨l, rfl, h'⟩

theorem ends_jump_directed {b : Branch} {condition : Expr} (hmerge : f.executor.config.mergeAtJoinPoints = false)
    (h : Directed I g b condition t f.state) (block : BlockId) :
    (jump block).Ends F f fun r f' ↦ r = .ok () ∧ ∃ s, f' = { f with state := s } ∧ s.id = f.state.id ∧
      Directed I g b condition (t.jumpTo block) s := by
  have hcurrent : t.id = f.state.current := by simpa using List.find?_some h.thread_eq
  refine ends_bind_ok (run_updateState (State.modifyThread_eq h.thread_eq rfl)) (ends_bind_ok rfl ?_)
  rw [if_neg (by rw [show _ = false from hmerge]; decide)]
  refine ends_pure ⟨rfl, _, rfl, rfl, h.id_eq, h.solves, ?_⟩
  change (f.state.setThread (t.jumpTo block)).thread? f.state.current = _
  rw [← hcurrent]
  refine State.thread?_setThread (t := t.jumpTo block) ?_
  rw [show (t.jumpTo block).id = f.state.current from hcurrent, h.thread_eq]
  rfl

theorem Arrayed.leads {a : Assignment} {targets : List (BlockId × Expr)} {q : BlockId × Expr}
    (h : Arrayed g l targets (fun q ↦ Directed I g q.1 q.2.2 (t.jumpTo q.2.1)) f)
    (hapart : (targets.map (·.2)).Pairwise fun e e' ↦ ∀ a : Assignment, a.free → a.val e ≠ 0 → a.val e' = 0)
    (hq : q ∈ targets) (ha : I.Solves a g.state.constraints) (hholds : a.val q.2 ≠ 0) :
    ∃ b s, g.Leads I f a b s ∧ s.id ∉ f.executor.removed ∧ s.thread? s.current = some (t.jumpTo q.1) := by
  obtain ⟨i, hi, rfl⟩ := List.getElem_of_mem hq
  have hzip : ∀ {j : Nat} (hj : j < l.length) (hj' : j < targets.length), (l[j], targets[j]) ∈ l.zip targets := by
    intro j hj hj'
    rw [← List.getElem_zip (h := by rw [List.length_zip, h.length_eq]; omega)]
    exact List.getElem_mem _
  have hi' : i < l.length := h.length_eq ▸ hi
  obtain ⟨s, hs, hlive, hdirected⟩ := h.copies _ (hzip hi' hi)
  refine ⟨_, s, ⟨(h.result_iff _).2 (List.getElem_mem _), hs, hdirected.id_eq,
    (hdirected.solves a).2 ⟨ha, hholds⟩, ?_⟩, hlive, hdirected.thread_eq⟩
  intro b' s' hb' hs' hsolves
  obtain ⟨j, hj, rfl⟩ := List.getElem_of_mem ((h.result_iff b').1 hb')
  have hj' : j < targets.length := h.length_eq ▸ hj
  obtain ⟨s₁, hs₁, -, hdirected'⟩ := h.copies _ (hzip hj hj')
  obtain rfl : s₁ = s' := Option.some.inj (hs₁.symm.trans hs')
  have hholds' := ((hdirected'.solves a).1 hsolves).2
  have hexclusive : ∀ {m n : Nat} (hm : m < targets.length) (hn : n < targets.length), m < n →
      a.val targets[m].2 ≠ 0 → a.val targets[n].2 = 0 := by
    intro m n hm hn hlt hval
    have h := List.pairwise_iff_getElem.1 hapart m n (by simpa using hm) (by simpa using hn) hlt a ha.free
    simpa using h (by simpa using hval)
  obtain hlt | heq | hlt := Nat.lt_trichotomy j i
  · exact (hholds (hexclusive hj' hi hlt hholds')).elim
  · subst heq
    rfl
  · exact (hholds' (hexclusive hi hj' hlt hholds)).elim

theorem ends_forTargets (hg : g.Workable I) (ht : g.state.thread? g.state.current = some t)
    (hmerge : g.executor.config.mergeAtJoinPoints = false) {P : BlockId → Assignment → Prop}
    {targets : List (BlockId × Expr)} (htargets : Symex.Targets P targets)
    (hunique : ∀ a b b', P b a → P b' a → b = b')
    (hreachable : Reachable I.trusted g.state.constraints targets)
    (hall : ∀ a, I.Solves a g.state.constraints → Targeted targets a) :
    (do
      let arms ← branch (targets.map (·.2))
      for (arm, block, _) in arms.zip targets do
        onSide arm (jump block) : Exec σ Unit).Ends F g fun r f ↦ r = .ok () ∧ ∀ a, I.Solves a g.state.constraints →
          ∃ b s block, g.Leads I f a b s ∧ s.id ∉ f.executor.removed ∧ P block a ∧
            s.thread? s.current = some (t.jumpTo block) := by
  have hne : targets.map (·.2) ≠ [] := by
    obtain ⟨a, ha⟩ := hg.able.satisfiable
    obtain ⟨q, hq, -⟩ := hall a ha
    exact List.ne_nil_of_mem (List.mem_map_of_mem hq)
  have hconditions : ∀ e ∈ targets.map (·.2), e.IsTruth ∧ ∃ a, I.Solves a g.state.constraints ∧ a.val e ≠ 0 := by
    intro e he
    obtain ⟨q, hq, rfl⟩ := List.mem_map.1 he
    exact ⟨(hreachable q hq).1, (hreachable q hq).2 trivial⟩
  refine ends_bind (ends_branch_arrayed hg ht hne hconditions) ?_ (by rintro _ _ ⟨_, ⟨⟩, -⟩)
  rintro _ f ⟨l, ⟨⟩, h⟩
  have hmerge' : ∀ f' : Focus σ, f'.Resembles f.executor → f'.executor.config.mergeAtJoinPoints = false := by
    intro f' hf'
    have hconfig : f'.executor.config = f.executor.config := (congrArg Executor.config hf' :)
    rw [hconfig, h.continues.config_eq, hmerge]
  -- the places are the same, each with its target and not the condition alone
  have hcopies : Arrayed g l targets (fun q ↦ Directed I g q.1 q.2.2 t) f := by
    refine ⟨h.continues, by simpa using h.length_eq, h.nodup, h.result_iff, fun q hq ↦ ?_⟩
    refine h.copies (q.1, q.2.2) ?_
    rw [List.zip_map_right]
    exact List.mem_map_of_mem hq
  refine ends_bind (ends_forArms (Q := fun q ↦ Directed I g q.1 q.2.2 (t.jumpTo q.2.1))
    (w := fun (q : BlockId × Expr) ↦ jump q.1) hcopies (fun _ _ _ ↦ rfl) ?_) ?_ (by rintro _ _ ⟨⟨⟩, -⟩)
  · exact fun q _ f' hf' hq ↦ ends_jump_directed (hmerge' f' hf') hq q.2.1
  rintro _ f' ⟨⟨⟩, h'⟩
  refine ends_pure ⟨rfl, fun a ha ↦ ?_⟩
  obtain ⟨q, hq, hholds⟩ := hall a ha
  obtain ⟨b, s, hleads, hlive, hthread⟩ := h'.leads (htargets.apart hunique) hq ha hholds
  exact ⟨b, s, q.1, hleads, hlive, htargets.leads q hq a ha.free hholds, hthread⟩

/-- Where nothing holds the machine up and states are not merged, each solution of a state leads to one state after a
switch. It goes on at the block of the first case for its value, or else at the block for all other values. -/
theorem switch_divides_solutions (hg : g.Workable I) (ht : g.state.thread? g.state.current = some t)
    (hmerge : g.executor.config.mergeAtJoinPoints = false) (hvalue : value.WellFormed)
    (hapart : Apart value.width cases) :
    (switch value otherwise cases).Returns g fun _ f ↦ ∀ a, I.Solves a g.state.constraints → ∃ b s,
      g.Leads I f a b s ∧ s.id ∉ f.executor.removed ∧
        s.thread? s.current = some (t.jumpTo (switchBlock value.width cases otherwise (a.val value))) := by
  refine returns_of_ends (ends_seq (ends_toUnique hg.able.valid hg.able.satisfiable hg.unrestrained.exact hvalue
    (fun v n solver hsame hwidth hv hall ↦ ?_) fun solver hsame hopen _ ↦ ?_))
  · dsimp only
    rw [hv]
    have hstart : Directed I g .current (.bool true) t (g.withSolver solver).state :=
      ⟨rfl, fun a ↦ ⟨fun ha ↦ ⟨ha, by simp [Expr.bool]⟩, fun ha ↦ ha.1⟩, ht⟩
    have hmerge' : (g.withSolver solver).executor.config.mergeAtJoinPoints = false := hmerge
    refine (ends_jump_directed hmerge' hstart _).mono ?_
    rintro _ _ ⟨rfl, s, rfl, hid, hdirected⟩
    refine ⟨(), rfl, fun a ha ↦ ⟨.current, s, ⟨trivial, rfl, hid,
      (hdirected.solves a).2 ⟨ha, by simp [Expr.bool]⟩, ?_⟩, hid ▸ hg.live, ?_⟩⟩
    · exact fun b s hb _ _ ↦ Focus.result_of_next_eq rfl hb
    · rw [hall a ha, ← hwidth]
      exact hdirected.thread_eq
  · dsimp only
    rw [hopen]
    refine ends_bind (ends_switchTargets hg.able.valid hg.able.satisfiable (hsame.backend_eq ▸ hg.unrestrained.exact)
      hvalue) ?_ (by rintro _ _ ⟨_, _, ⟨⟩, -⟩)
    rintro targets _ ⟨_, solver', ⟨⟩, hsame', rfl, htargets, hreachable, hall⟩
    have hasked : (g.withSolver solver').Workable I :=
      (hg.share.asked (hsame.trans hsame') fun _ _ ↦ trivial).toWorkable
    refine (ends_forTargets hasked ht hmerge htargets (fun a b b' h h' ↦ h.unique h' hapart) hreachable hall).mono ?_
    rintro _ f ⟨rfl, hdivided⟩
    refine ⟨(), rfl, fun a ha ↦ ?_⟩
    obtain ⟨b, s, block, hleads, hlive, hblock, hthread⟩ := hdivided a ha
    refine ⟨b, s, ⟨hleads.result, hleads.at_eq, hleads.id_eq, hleads.solves, hleads.only⟩, hlive, ?_⟩
    rw [hthread, hblock.unique leads_switchBlock hapart]

/-- A switch on a byte of the input, where two cases are for one value. -/
theorem switch_divides_solutions_movable : ∃ t, movable.state.thread? movable.state.current = some t ∧
    (switch Solver.inputByte 4 [(5, 1), (261, 1), (7, 2), (300, 3)]).Returns movable fun _ f ↦
      ∀ a, Inputs.all.Solves a movable.state.constraints → ∃ b s,
        movable.Leads .all f a b s ∧ s.id ∉ f.executor.removed ∧ s.thread? s.current =
          some (t.jumpTo (switchBlock 8 [(5, 1), (261, 1), (7, 2), (300, 3)] 4 (a.val Solver.inputByte))) :=
  ⟨_, rfl, switch_divides_solutions workable_movable rfl rfl (by simp [Solver.inputByte]) (by decide)⟩

end Exec

end Symex
