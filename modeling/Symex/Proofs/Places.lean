import Symex.Proofs.Forks

namespace Symex

variable {σ α : Type} {I : Inputs} {F : Fault → Prop}

/-- From `d` to `d'` the host answered some more calls. -/
structure Dispatcher.Continues (d d' : Dispatcher) : Prop where
  answer_eq : d'.answer = d.answer
  calls : d.calls <:+ d'.calls

theorem Dispatcher.Continues.refl (d : Dispatcher) : d.Continues d := ⟨rfl, List.suffix_refl _⟩

theorem Dispatcher.Continues.trans {d d' d'' : Dispatcher} (h : d.Continues d') (h' : d'.Continues d'') :
    d.Continues d'' :=
  ⟨h'.answer_eq.trans h.answer_eq, h.calls.trans h'.calls⟩

theorem Dispatcher.continues_call (d : Dispatcher) (c : HostCall) : d.Continues (d.call c).2 :=
  ⟨rfl, List.suffix_cons _ _⟩

namespace Executor

variable {e e' e'' : Executor σ} {id : StateId} {error : ExecError}

/-- From `e` to `e'` the machine went on with what it does. Whatever counts as reported was reported before,
or there is a new test case for it. -/
structure Continues (e e' : Executor σ) : Prop where
  program_eq : e'.program = e.program
  config_eq : e'.config = e.config
  location_eq : e'.location = e.location
  seeds_eq : e'.seeds = e.seeds
  atMemoryLimit_eq : e'.atMemoryLimit = e.atMemoryLimit
  host : e.host.Continues e'.host
  maxSize_eq : e'.allocator.maxSize = e.allocator.maxSize
  solver : e.solver.Same e'.solver
  next_le : e.nextStateId ≤ e'.nextStateId
  nextId_le : e.allocator.nextId ≤ e'.allocator.nextId
  removed : ∀ id ∈ e.removed, id ∈ e'.removed
  cases : ∃ new, e'.cases.toList = e.cases.toList ++ new ∧
    ∀ r ∈ e'.reported, r ∈ e.reported ∨ ∃ t ∈ new, ∃ kind, t.termination = .error kind r.2

theorem Continues.refl (e : Executor σ) : e.Continues e :=
  ⟨rfl, rfl, rfl, rfl, rfl, .refl _, rfl, .refl _, Nat.le_refl _, Nat.le_refl _, fun _ h ↦ h, [], by simp⟩

theorem Continues.withSolver {solver : Solver σ} (h : e.solver.Same solver) :
    e.Continues { e with solver } :=
  ⟨rfl, rfl, rfl, rfl, rfl, .refl _, rfl, h, Nat.le_refl _, Nat.le_refl _, fun _ h ↦ h, [], by simp⟩

theorem Continues.trans (h : e.Continues e') (h' : e'.Continues e'') : e.Continues e'' where
  program_eq := h'.program_eq.trans h.program_eq
  config_eq := h'.config_eq.trans h.config_eq
  location_eq := h'.location_eq.trans h.location_eq
  seeds_eq := h'.seeds_eq.trans h.seeds_eq
  atMemoryLimit_eq := h'.atMemoryLimit_eq.trans h.atMemoryLimit_eq
  host := h.host.trans h'.host
  maxSize_eq := h'.maxSize_eq.trans h.maxSize_eq
  solver := h.solver.trans h'.solver
  next_le := Nat.le_trans h.next_le h'.next_le
  nextId_le := Nat.le_trans h.nextId_le h'.nextId_le
  removed id hid := h'.removed id (h.removed id hid)
  cases := by
    obtain ⟨new, hnew, hreported⟩ := h.cases
    obtain ⟨new', hnew', hreported'⟩ := h'.cases
    refine ⟨new ++ new', by rw [hnew', hnew, List.append_assoc], fun r hr ↦ ?_⟩
    obtain hr | ⟨t, ht, htold⟩ := hreported' r hr
    · obtain hr | ⟨t, ht, htold⟩ := hreported r hr
      · exact .inl hr
      · exact .inr ⟨t, by simp [ht], htold⟩
    · exact .inr ⟨t, by simp [ht], htold⟩

/-- From `e` to `e'` the error of a state was reported. If only the first error with a message at an
instruction counts, there may have been one before. -/
def Reports (e e' : Executor σ) (id : StateId) (error : ExecError) : Prop :=
  ∃ new, e'.cases.toList = e.cases.toList ++ new ∧
    ((∃ t ∈ new, t.state = id ∧ t.termination = .error error.kind error.message) ∨
      (e.config.emitAllErrors = false ∧ ((e.location, error.message) ∈ e.reported ∨
        ∃ t ∈ new, ∃ kind, t.termination = .error kind error.message)))

theorem Reports.after (h : e.Reports e' id error) (h' : e'.Continues e'') : e.Reports e'' id error := by
  obtain ⟨new, hnew, htold⟩ := h
  obtain ⟨new', hnew', -⟩ := h'.cases
  refine ⟨new ++ new', by rw [hnew', hnew, List.append_assoc], ?_⟩
  obtain ⟨t, ht, htold⟩ | ⟨hfirst, hold | ⟨t, ht, htold⟩⟩ := htold
  · exact .inl ⟨t, by simp [ht], htold⟩
  · exact .inr ⟨hfirst, .inl hold⟩
  · exact .inr ⟨hfirst, .inr ⟨t, by simp [ht], htold⟩⟩

theorem Reports.before (h : e.Continues e') (h' : e'.Reports e'' id error) : e.Reports e'' id error := by
  obtain ⟨new, hnew, hreported⟩ := h.cases
  obtain ⟨new', hnew', htold⟩ := h'
  refine ⟨new ++ new', by rw [hnew', hnew, List.append_assoc], ?_⟩
  rw [h.config_eq, h.location_eq] at htold
  obtain ⟨t, ht, htold⟩ | ⟨hfirst, hold | ⟨t, ht, htold⟩⟩ := htold
  · exact .inl ⟨t, by simp [ht], htold⟩
  · obtain hold | ⟨t, ht, htold⟩ := hreported _ hold
    · exact .inr ⟨hfirst, .inl hold⟩
    · exact .inr ⟨hfirst, .inr ⟨t, by simp [ht], htold⟩⟩
  · exact .inr ⟨hfirst, .inr ⟨t, by simp [ht], htold⟩⟩

/-- The solver always answers, and states may be forked. -/
structure Unrestrained (I : Inputs) (e : Executor σ) : Prop where
  exact : e.solver.backend.Exact I False
  seeds : ∀ id : StateId, e.seeds[id]? = none
  maxDepth : e.config.maxDepth = 0
  maxForks : e.config.maxForks = none
  inhibitForking : e.config.inhibitForking = false
  memory : e.config.maxMemoryInhibit = false ∨ e.atMemoryLimit = false

/-- Nothing keeps the machine from going into every case: the solver always answers, states may be forked,
and no search is cut off. -/
structure Unhindered (I : Inputs) (e : Executor σ) : Prop extends e.Unrestrained I where
  maxResolutions : e.config.maxResolutions = 0
  maxSymbolicArraySize : e.config.maxSymbolicArraySize = 0

theorem Unrestrained.not_inhibited {f : Focus σ} (h : f.executor.Unrestrained I)
    (henabled : f.state.forkDisabled = false) : ¬f.Inhibited := by
  rintro (⟨hinhibit, hlimit⟩ | hdisabled | hinhibit | ⟨n, hn, -⟩)
  · obtain hmemory | hmemory := h.memory
    · exact nomatch hmemory.symm.trans hinhibit
    · exact nomatch hmemory.symm.trans hlimit
  · exact nomatch henabled.symm.trans hdisabled
  · exact nomatch h.inhibitForking.symm.trans hinhibit
  · rw [h.maxForks] at hn
    cases hn

theorem Unrestrained.continues (h : e.Unrestrained I) (h' : e.Continues e') : e'.Unrestrained I where
  exact := h'.solver.backend_eq ▸ h.exact
  seeds := h'.seeds_eq ▸ h.seeds
  maxDepth := h'.config_eq ▸ h.maxDepth
  maxForks := h'.config_eq ▸ h.maxForks
  inhibitForking := h'.config_eq ▸ h.inhibitForking
  memory := h'.config_eq ▸ h'.atMemoryLimit_eq ▸ h.memory

theorem Unhindered.continues (h : e.Unhindered I) (h' : e.Continues e') : e'.Unhindered I where
  toUnrestrained := h.toUnrestrained.continues h'
  maxResolutions := h'.config_eq ▸ h.maxResolutions
  maxSymbolicArraySize := h'.config_eq ▸ h.maxSymbolicArraySize

end Executor

namespace Focus

variable {f f' : Focus σ} {b b' : Branch} {s : State} {id : StateId}

/-! ## Places -/

/-- The focus for work on the state `s` at a place. -/
def view (f : Focus σ) (b : Branch) (s : State) : Focus σ where
  executor := { f.executor with
    states := match b with
      | .current => f.executor.states
      | .forked id => f.executor.states.erase id }
  state := s

/-- The focus after work on the state at a place, which ended in `f'`. -/
def back (f : Focus σ) (b : Branch) (f' : Focus σ) : Focus σ where
  executor := { f'.executor with
    states := match b with
      | .current => f'.executor.states
      | .forked id => f'.executor.states.insert id f'.state }
  state := match b with
    | .current => f'.state
    | .forked _ => f.state

end Focus

theorem Executor.Continues.view {e : Executor σ} {f : Focus σ} (h : e.Continues f.executor) (b : Branch)
    (s : State) : e.Continues (f.view b s).executor :=
  ⟨h.program_eq, h.config_eq, h.location_eq, h.seeds_eq, h.atMemoryLimit_eq, h.host, h.maxSize_eq, h.solver,
    h.next_le, h.nextId_le, h.removed, h.cases⟩

theorem Executor.Continues.back {f f' : Focus σ} {b : Branch} {s : State}
    (h : (f.view b s).executor.Continues f'.executor) : f.executor.Continues (f.back b f').executor :=
  ⟨h.program_eq, h.config_eq, h.location_eq, h.seeds_eq, h.atMemoryLimit_eq, h.host, h.maxSize_eq, h.solver,
    h.next_le, h.nextId_le, h.removed, h.cases⟩

namespace Focus

variable {f f' : Focus σ} {b b' : Branch} {s : State} {id : StateId}

@[simp] theorem stateAt?_back (f : Focus σ) (b : Branch) (f' : Focus σ) :
    (f.back b f').stateAt? b = some f'.state := by
  cases b with
  | current => rfl
  | forked id => simp [stateAt?, back]

theorem stateAt?_back_forked (h : b ≠ .forked id) :
    (f.back b f').stateAt? (.forked id) = f'.executor.states[id]? := by
  cases b with
  | current => rfl
  | forked id' =>
    have hne : id' ≠ id := fun heq ↦ h (by rw [heq])
    simp only [stateAt?, back, Std.TreeMap.getElem?_insert, Std.LawfulEqCmp.compare_eq_iff_eq, hne,
      if_false]

/-- The place is in use, or its id was given out. -/
def Given (f : Focus σ) : Branch → Prop
  | .current => True
  | .forked id => id < f.executor.nextStateId

theorem Given.mono (hb : f.Given b) (h : f.executor.nextStateId ≤ f'.executor.nextStateId) :
    f'.Given b := by
  cases b with
  | current => trivial
  | forked id => exact Nat.lt_of_lt_of_le hb h

/-- The state in focus was worked on. The others are as they were, and did not end. -/
structure Advanced (f f' : Focus σ) : Prop where
  continues : f.executor.Continues f'.executor
  states_eq : ∀ id < f.executor.nextStateId, f'.executor.states[id]? = f.executor.states[id]?
  removed : ∀ id ∈ f'.executor.removed, id ∈ f.executor.removed ∨ id = f.state.id

/-- The state at a place, which is called `id`, was worked on. The others are as they were, and did not
end. -/
structure Worked (b : Branch) (id : StateId) (f f' : Focus σ) : Prop where
  continues : f.executor.Continues f'.executor
  stateAt?_eq : ∀ b', b' ≠ b → f.Given b' → f'.stateAt? b' = f.stateAt? b'
  removed : ∀ id' ∈ f'.executor.removed, id' ∈ f.executor.removed ∨ id' = id

theorem Advanced.worked (h : (f.view b s).Advanced f') : f.Worked b s.id (f.back b f') where
  continues := h.continues.back
  stateAt?_eq b' hne hgiven := by
    cases b with
    | current =>
      cases b' with
      | current => exact (hne rfl).elim
      | forked id => exact h.states_eq id hgiven
    | forked id =>
      cases b' with
      | current => rfl
      | forked id' =>
        have hid : id ≠ id' := fun heq ↦ hne (by rw [heq])
        rw [stateAt?_back_forked hne.symm, h.states_eq id' hgiven]
        simp only [view, stateAt?, Std.TreeMap.getElem?_erase, Std.LawfulEqCmp.compare_eq_iff_eq, hid,
          if_false]
  removed := h.removed

theorem Advanced.trans {f'' : Focus σ} (h : f.Advanced f') (hid : f'.state.id = f.state.id)
    (h' : f'.Advanced f'') : f.Advanced f'' where
  continues := h.continues.trans h'.continues
  states_eq id hlt :=
    (h'.states_eq id (Nat.lt_of_lt_of_le hlt h.continues.next_le)).trans (h.states_eq id hlt)
  removed id hmem := by
    obtain hmem | rfl := h'.removed id hmem
    · exact h.removed id hmem
    · exact .inr hid

/-- No state was forked. -/
structure Unforked (f f' : Focus σ) : Prop where
  nextStateId_eq : f'.executor.nextStateId = f.executor.nextStateId
  tree_eq : f'.executor.tree = f.executor.tree

theorem Advanced.withSolver {solver : Solver σ} (h : f.executor.solver.Same solver) :
    f.Advanced (f.withSolver solver) :=
  ⟨.withSolver h, fun _ _ ↦ rfl, fun _ h ↦ .inl h⟩

/-- A state that can be worked on and forked. -/
structure Ready (I : Inputs) (f : Focus σ) (b : Branch) (s : State) : Prop where
  at_eq : f.stateAt? b = some s
  given : f.Given b
  live : s.id ∉ f.executor.removed
  valid : s.constraints.Valid
  satisfiable : I.Satisfiable s.constraints
  leaf : ∀ n, s.node = some n → f.executor.tree.isLeaf n = true
  enabled : s.forkDisabled = false

theorem Ready.kept (h : f.Ready I b' s) (hw : f.Worked b id f') (hu : f.Unforked f') (hne : b' ≠ b)
    (hid : s.id ≠ id) : f'.Ready I b' s where
  at_eq := (hw.stateAt?_eq b' hne h.given).trans h.at_eq
  given := h.given.mono (Nat.le_of_eq hu.nextStateId_eq.symm)
  live hmem := (hw.removed _ hmem).elim h.live hid
  valid := h.valid
  satisfiable := h.satisfiable
  leaf := hu.tree_eq ▸ h.leaf
  enabled := h.enabled

theorem Ready.asked {solver : Solver σ} (h : f.Ready I b s) (hsame : f.executor.solver.Same solver) :
    f.Worked b s.id (f.back b ((f.view b s).withSolver solver)) ∧
      f.Unforked (f.back b ((f.view b s).withSolver solver)) ∧
        (f.back b ((f.view b s).withSolver solver)).Ready I b s :=
  ⟨Advanced.worked (.withSolver hsame), ⟨rfl, rfl⟩, stateAt?_back .., h.given, h.live, h.valid,
    h.satisfiable, h.leaf, h.enabled⟩

end Focus

namespace Exec

variable {f : Focus σ} {b : Branch} {s : State} {condition : Expr} {x : Exec σ α}

theorem ends_onBranch {P : Except PathError (Option α) → Focus σ → Prop} (hat : f.stateAt? b = some s)
    (hlive : s.id ∉ f.executor.removed)
    (hx : x.Ends F (f.view b s) fun r f' ↦
      match r with
      | .ok a => P (.ok (some a)) (f.back b f')
      | .error e => (settle e).Ends F f' fun r f'' ↦
        match r with
        | .ok _ => P (.ok none) (f.back b f'')
        | .error e => P (.error e) (f.back b f'')) :
    (onBranch b x).Ends F f P := by
  cases b with
  | current =>
    obtain rfl : f.state = s := Option.some.inj hat
    refine ends_settling (fun hdone ↦ (hlive (by simpa using hdone)).elim) fun _ ↦ ?_
    exact hx
  | forked id =>
    refine ends_bind (P := fun r f' ↦ P (r.map Option.join) f')
      (ends_visit (fun hnone ↦ nomatch hnone.symm.trans hat) fun s' hs' ↦ ?_) (fun _ _ h ↦ ends_pure h)
      fun _ _ h ↦ h
    obtain rfl : s' = s := Option.some.inj (hs'.symm.trans hat)
    refine ends_settling (fun hdone ↦ (hlive (by simpa using hdone)).elim) fun _ ↦ ?_
    exact hx

theorem ends_onBranch_query {P : Except PathError (Option α) → Focus σ → Prop} {R : α → Prop}
    {question : ConstraintSet → Ask σ α} (hready : f.Ready I b s)
    (hexact : f.executor.solver.backend.Exact I False)
    (hquestion : (question s.constraints).Answers I False R)
    (h : ∀ a f', R a → f.Worked b s.id f' → f.Unforked f' → f'.Ready I b s → P (.ok (some a)) f') :
    (onBranch b (query question)).Ends F f P := by
  refine ends_onBranch hready.at_eq hready.live (ends_query (by exact hquestion) (by exact hexact) ?_ ?_)
  · intro a solver hsame ha
    obtain ⟨hworked, hunforked, hready'⟩ := hready.asked hsame
    exact h a _ ha hworked hunforked hready'
  · exact fun _ _ hfails ↦ hfails.elim

theorem ends_forkOn {P : Except PathError Sides → Focus σ → Prop} (hready : f.Ready I b s)
    (hunhindered : f.executor.Unrestrained I)
    (hnew : f.executor.nextStateId ∉ f.executor.removed) (hcond : condition.IsTruth)
    (halways : ∀ f', f.Worked b s.id f' → f.Unforked f' → f'.Ready I b s →
      (∀ a, I.Solves a s.constraints → a.val condition ≠ 0) → P (.ok (some b, none)) f')
    (hnever : ∀ f', f.Worked b s.id f' → f.Unforked f' → f'.Ready I b s →
      (∀ a, I.Solves a s.constraints → a.val condition = 0) → P (.ok (none, some b)) f')
    (hboth : ∀ f' s₁ s₂, f.Worked b s.id f' →
      f'.executor.nextStateId = f.executor.nextStateId + 1 → f'.Ready I b s₁ →
      f'.Ready I (.forked f.executor.nextStateId) s₂ → s₁.id = s.id →
      s₂.id = f.executor.nextStateId → s.SameData s₁ → s.SameData s₂ →
      (∀ a, I.Solves a s₁.constraints ↔ I.Solves a s.constraints ∧ a.val condition ≠ 0) →
      (∀ a, I.Solves a s₂.constraints ↔ I.Solves a s.constraints ∧ a.val condition = 0) →
      P (.ok (some b, some (.forked f.executor.nextStateId))) f') :
    (forkOn b condition true).Ends F f P := by
  have hfree : ¬(f.view b s).Inhibited :=
    (hunhindered.continues (.view (.refl _) b s)).not_inhibited hready.enabled
  refine ends_seq (ends_onBranch hready.at_eq hready.live (ends_fork (f.view b s) (I := I) hready.valid
    hready.satisfiable hcond (hunhindered.seeds _) hunhindered.exact (.inl rfl) ?_ ?_ ?_ ?_))
  · intro solver hsame hall
    obtain ⟨hworked, hunforked, hready'⟩ := hready.asked hsame
    exact ends_pure (halways _ hworked hunforked hready' hall)
  · intro solver hsame hnone
    obtain ⟨hworked, hunforked, hready'⟩ := hready.asked hsame
    exact ends_pure (hnever _ hworked hunforked hready' hnone)
  · intro solver hsame htrue hfalse _
    refine ends_split ((f.view b s).withSolver solver) hready.valid hcond (hunhindered.seeds _) htrue hfalse
      hready.leaf (hunhindered.seeds _) hunhindered.maxDepth ?_
    intro left right tree c₁ c₂ hleft hright hc₁ hc₂ hsolves₁ hsolves₂
    obtain ⟨a₁, ha₁⟩ := htrue
    obtain ⟨a₂, ha₂⟩ := hfalse
    refine ends_pure (hboth _ (s.divided s.id left c₁ true true)
      (s.divided f.executor.nextStateId right c₂ false true) (Focus.Advanced.worked ?_) rfl ?_ ?_ rfl rfl
      (State.sameData_divided ..) (State.sameData_divided ..) hsolves₁ hsolves₂)
    · refine ⟨⟨rfl, rfl, rfl, rfl, rfl, .refl _, rfl, hsame, Nat.le_succ _, Nat.le_refl _, fun _ h ↦ h, [],
        (List.append_nil _).symm, fun _ h ↦ .inl h⟩, fun id hid ↦ ?_, fun _ h ↦ .inl h⟩
      have hne : f.executor.nextStateId ≠ id := Nat.ne_of_gt hid
      simp [Focus.withSolver, Focus.view, Std.TreeMap.getElem?_insert, hne]
    · exact ⟨Focus.stateAt?_back .., hready.given.mono (Nat.le_succ _), hready.live, hc₁,
        ⟨a₁, (hsolves₁ a₁).2 ha₁⟩, hleft, hready.enabled⟩
    · refine ⟨?_, Nat.lt_succ_self _, hnew, hc₂, ⟨a₂, (hsolves₂ a₂).2 ha₂⟩, hright, hready.enabled⟩
      have hne : b ≠ .forked f.executor.nextStateId := by
        rintro rfl
        exact Nat.lt_irrefl _ hready.given
      rw [Focus.stateAt?_back_forked hne]
      exact Std.TreeMap.getElem?_insert_self
  · intro _ _ _ _ hinh
    exact absurd hinh hfree

/-! ## Errors -/

variable {focus : Focus σ}

theorem ends_emit {termination : Termination} {details : Option String}
    {P : Except PathError Unit → Focus σ → Prop} (hvalid : focus.state.constraints.Valid)
    (hsat : I.Satisfiable focus.state.constraints)
    (hexact : focus.executor.solver.backend.Exact I False)
    (htrace : ∃ t, focus.state.stackTrace focus.executor.program = .ok t)
    (h : ∀ solver testCase, focus.executor.solver.Same solver → testCase.state = focus.state.id →
      testCase.termination = termination →
      P (.ok ()) { focus with executor := { focus.executor with
        solver, cases := focus.executor.cases.push testCase
        statistics.testCases := focus.executor.statistics.testCases + 1 } }) :
    (emit termination details).Ends F focus P := by
  refine ends_bind (P := fun r f ↦ ∃ a solver, r = .ok a ∧ focus.executor.solver.Same solver ∧
    f = focus.withSolver solver) ?_ ?_ ?_
  · refine ends_bind_ok rfl ?_
    refine ends_seq (ends_ask (Solver.answers_initialValues hvalid hsat _) hexact fun r solver hsame _ ↦ ?_)
    dsimp only
    split
    · exact ends_pure ⟨_, _, rfl, hsame, rfl⟩
    · exact ends_pure ⟨_, _, rfl, hsame, rfl⟩
    · exact ends_pure ⟨_, _, rfl, hsame, rfl⟩
  · rintro a f ⟨_, solver, -, hsame, rfl⟩
    obtain ⟨t, ht⟩ := htrace
    refine ends_bind_ok rfl (ends_bind_ok rfl ?_)
    refine ends_seq (ends_lift (Checked.ends_of_eq ht ?_))
    exact ends_modifyExecutor (h solver _ hsame rfl rfl)
  · rintro _ _ ⟨_, _, ⟨⟩, -⟩

theorem ends_terminateWith_exact {termination : Termination} {details : Option String}
    {P : Except PathError Unit → Focus σ → Prop} (hlive : focus.state.id ∉ focus.executor.removed)
    (hvalid : focus.state.constraints.Valid) (hsat : I.Satisfiable focus.state.constraints)
    (hexact : focus.executor.solver.backend.Exact I False)
    (htrace : ∃ t, focus.state.stackTrace focus.executor.program = .ok t)
    (h : ∀ f', f'.state = focus.state → f'.executor.nextStateId = focus.executor.nextStateId →
      focus.state.id ∈ f'.executor.removed → P (.ok ()) f') : (terminateWith termination details).Ends F focus P := by
  refine ends_bind_ok rfl ?_
  rw [if_neg (by simpa using hlive)]
  exact ends_seq (ends_emit hvalid hsat hexact htrace fun _ _ _ _ _ ↦ ends_terminate hlive
    (h _ rfl rfl (List.mem_append_right _ (List.mem_singleton_self _))))

variable (focus) in
theorem ends_terminateOnError {error : ExecError} {details : Option String}
    {P : Except PathError Unit → Focus σ → Prop} (hlive : focus.state.id ∉ focus.executor.removed)
    (hvalid : focus.state.constraints.Valid) (hsat : I.Satisfiable focus.state.constraints)
    (hexact : focus.executor.solver.backend.Exact I False)
    (htrace : ∃ t, focus.state.stackTrace focus.executor.program = .ok t)
    (h : ∀ f', focus.Advanced f' → focus.Unforked f' → f'.state = focus.state →
      focus.state.id ∈ f'.executor.removed →
      focus.executor.Reports f'.executor focus.state.id error → P (.ok ()) f') :
    (terminateOnError ⟨focus.executor.location, error⟩ details).Ends F focus P := by
  have hremoved : ∀ id ∈ focus.executor.removed ++ [focus.state.id],
      id ∈ focus.executor.removed ∨ id = focus.state.id := by simp
  have hreport : ∀ reported : List (Location × String),
      (∀ r ∈ reported, r ∈ focus.executor.reported ∨ r.2 = error.message) → (do
        emit (.error error.kind error.message) details
        modifyExecutor fun e ↦ { e with errors := e.errors ++ [⟨focus.executor.location, error⟩] }
        terminate : Exec σ Unit).Ends F { focus with executor := { focus.executor with reported } } P := by
    intro reported hreported
    refine ends_seq (ends_emit hvalid hsat hexact htrace fun solver t hsame hstate htermination ↦ ?_)
    refine ends_bind_ok rfl (ends_terminate hlive (h _ ?_ ⟨rfl, rfl⟩ rfl (by simp) ?_))
    · refine ⟨⟨rfl, rfl, rfl, rfl, rfl, .refl _, rfl, hsame, Nat.le_refl _, Nat.le_refl _,
        fun id hid ↦ List.mem_append_left _ hid, [t], Array.toList_push,
        fun r hr ↦ (hreported r hr).imp_right fun hr ↦ ?_⟩, fun _ _ ↦ rfl, hremoved⟩
      exact ⟨t, by simp, error.kind, by rw [htermination, hr]⟩
    · exact ⟨[t], Array.toList_push, .inl ⟨t, by simp, hstate, htermination⟩⟩
  unfold terminateOnError
  refine ends_bind_ok rfl ?_
  rw [if_neg (by simpa using hlive)]
  refine ends_bind_ok rfl ?_
  dsimp only
  split
  · rename_i hold
    split
    · exact hreport focus.executor.reported fun r hr ↦ .inl hr
    · rename_i hfirst
      refine ends_terminate hlive (h _ ?_ ⟨rfl, rfl⟩ rfl (by simp) ?_)
      · exact ⟨⟨rfl, rfl, rfl, rfl, rfl, .refl _, rfl, .refl _, Nat.le_refl _, Nat.le_refl _,
          fun id hid ↦ List.mem_append_left _ hid, [], by simp⟩, fun _ _ ↦ rfl, hremoved⟩
      · exact ⟨[], by simp, .inr ⟨by simpa using hfirst, .inl (by simpa using hold)⟩⟩
  · refine ends_bind_ok rfl (hreport _ fun r hr ↦ ?_)
    obtain rfl | hr := List.mem_cons.1 hr
    · exact .inr rfl
    · exact .inl hr

theorem ends_addressInfo {address : Expr} {P : Except PathError String → Focus σ → Prop}
    (hvalid : focus.state.constraints.Valid) (hsat : I.Satisfiable focus.state.constraints)
    (hexact : focus.executor.solver.backend.Exact I False) (haddress : address.WellFormed)
    (h : ∀ info solver, focus.executor.solver.Same solver → P (.ok info) (focus.withSolver solver)) :
    (addressInfo address).Ends F focus P := by
  unfold addressInfo
  dsimp only
  split
  · exact ends_bind_ok rfl (ends_pure (h _ focus.executor.solver (.refl _)))
  · refine ends_seq (ends_ask (Solver.answers_value hvalid hsat haddress) hexact fun r solver hsame hr ↦ ?_)
    cases r with
    | error _ => exact hr.elim
    | ok example_ =>
      refine ends_seq (ends_ask (Solver.answers_range hvalid hsat haddress)
        (hsame.backend_eq ▸ hexact) fun r solver' hsame' hr ↦ ?_)
      cases r with
      | error _ => exact hr.elim
      | ok bounds => exact ends_bind_ok rfl (ends_bind_ok rfl (ends_pure (h _ solver' (hsame.trans hsame'))))

end Exec

/-! ## Where solutions lead -/

/-- The id of the state at a place, if the one in focus is called `home`. -/
def Branch.idFrom (home : StateId) : Branch → StateId
  | .current => home
  | .forked id => id

namespace Focus

variable {g f f' : Focus σ} {a : Assignment} {b b₀ : Branch} {s s' s₀ s₁ s₂ : State} {id : StateId}

/-- The places of what a state became: its own and those that were given out since. -/
def Result (g f : Focus σ) : Branch → Prop
  | .current => True
  | .forked id => g.executor.nextStateId ≤ id ∧ id < f.executor.nextStateId

theorem Result.given (h : g.Result f b) : f.Given b := by
  cases b with
  | current => trivial
  | forked id => exact h.2

theorem Result.of_eq (h : g.Result f b) (heq : f'.executor.nextStateId = f.executor.nextStateId) :
    g.Result f' b := by
  cases b with
  | current => trivial
  | forked id => exact ⟨h.1, heq ▸ h.2⟩

theorem Result.succ (h : g.Result f b) (heq : f'.executor.nextStateId = f.executor.nextStateId + 1) :
    g.Result f' b := by
  cases b with
  | current => trivial
  | forked id => exact ⟨h.1, heq ▸ Nat.lt_succ_of_lt h.2⟩

theorem Result.idFrom_ne (hhome : g.state.id < g.executor.nextStateId) (h : g.Result f b)
    (h₀ : g.Result f b₀) (hne : b₀ ≠ b) : b₀.idFrom g.state.id ≠ b.idFrom g.state.id := by
  cases b with
  | current =>
    cases b₀ with
    | current => exact (hne rfl).elim
    | forked id₀ => exact Nat.ne_of_gt (Nat.lt_of_lt_of_le hhome h₀.1)
  | forked id =>
    cases b₀ with
    | current => exact Nat.ne_of_lt (Nat.lt_of_lt_of_le hhome h.1)
    | forked id₀ => exact fun heq ↦ hne (congrArg Branch.forked heq)

theorem Result.idFrom_lt (hhome : g.state.id < g.executor.nextStateId)
    (hle : g.executor.nextStateId ≤ f.executor.nextStateId) (h : g.Result f b) :
    b.idFrom g.state.id < f.executor.nextStateId := by
  cases b with
  | current => exact Nat.lt_of_lt_of_le hhome hle
  | forked id => exact h.2

/-- A solution leads to a place and to no other one. -/
structure Leads (I : Inputs) (g f : Focus σ) (a : Assignment) (b : Branch) (s : State) : Prop where
  result : g.Result f b
  at_eq : f.stateAt? b = some s
  id_eq : s.id = b.idFrom g.state.id
  solves : I.Solves a s.constraints
  only : ∀ b' s', g.Result f b' → f.stateAt? b' = some s' → I.Solves a s'.constraints → b' = b

theorem Leads.kept (h : g.Leads I f a b₀ s₀) (hw : f.Worked b id f')
    (hnext : f'.executor.nextStateId = f.executor.nextStateId) (hat : f.stateAt? b = some s)
    (hat' : f'.stateAt? b = some s') (hid : s'.id = s.id) (hc : s'.constraints = s.constraints) :
    (b₀ ≠ b ∧ g.Leads I f' a b₀ s₀) ∨ (b₀ = b ∧ s₀ = s ∧ g.Leads I f' a b₀ s') := by
  have honly : ∀ b' s', g.Result f' b' → f'.stateAt? b' = some s' → I.Solves a s'.constraints →
      b' = b₀ := by
    intro b' z hb' hz hsolves
    have hb' := hb'.of_eq hnext.symm
    by_cases heq : b' = b
    · subst heq
      obtain rfl := Option.some.inj (hat'.symm.trans hz)
      exact h.only b' s hb' hat (hc ▸ hsolves)
    · exact h.only b' z hb' ((hw.stateAt?_eq b' heq hb'.given).symm.trans hz) hsolves
  by_cases heq : b₀ = b
  · subst heq
    obtain rfl := Option.some.inj (h.at_eq.symm.trans hat)
    exact .inr ⟨rfl, rfl, h.result.of_eq hnext, hat', hid.trans h.id_eq, hc ▸ h.solves, honly⟩
  · exact .inl ⟨heq, h.result.of_eq hnext, (hw.stateAt?_eq b₀ heq h.result.given).trans h.at_eq, h.id_eq,
      h.solves, honly⟩

theorem Leads.split {condition : Expr} (h : g.Leads I f a b₀ s₀) (hw : f.Worked b id f')
    (hg : g.executor.nextStateId ≤ f.executor.nextStateId)
    (hnext : f'.executor.nextStateId = f.executor.nextStateId + 1) (hresult : g.Result f b)
    (hat : f.stateAt? b = some s) (hat₁ : f'.stateAt? b = some s₁)
    (hat₂ : f'.stateAt? (.forked f.executor.nextStateId) = some s₂) (hid₁ : s₁.id = s.id)
    (hid₂ : s₂.id = f.executor.nextStateId)
    (h₁ : ∀ a, I.Solves a s₁.constraints ↔ I.Solves a s.constraints ∧ a.val condition ≠ 0)
    (h₂ : ∀ a, I.Solves a s₂.constraints ↔ I.Solves a s.constraints ∧ a.val condition = 0) :
    (b₀ ≠ b ∧ g.Leads I f' a b₀ s₀) ∨
      (b₀ = b ∧ s₀ = s ∧ a.val condition ≠ 0 ∧ g.Leads I f' a b s₁) ∨
        (b₀ = b ∧ s₀ = s ∧ a.val condition = 0 ∧
          g.Leads I f' a (.forked f.executor.nextStateId) s₂) := by
  -- a solution is found at the place that was forked, at the new one, or where it was before
  have hwhere : ∀ b' s', g.Result f' b' → f'.stateAt? b' = some s' → I.Solves a s'.constraints →
      (b' = b ∧ I.Solves a s.constraints ∧ a.val condition ≠ 0) ∨
        (b' = .forked f.executor.nextStateId ∧ I.Solves a s.constraints ∧ a.val condition = 0) ∨
          (b' ≠ b ∧ b' = b₀) := by
    intro b' z hb' hz hsolves
    by_cases heq : b' = b
    · subst heq
      obtain rfl := Option.some.inj (hat₁.symm.trans hz)
      exact .inl ⟨rfl, (h₁ a).1 hsolves⟩
    · by_cases hnew : b' = .forked f.executor.nextStateId
      · subst hnew
        obtain rfl := Option.some.inj (hat₂.symm.trans hz)
        exact .inr (.inl ⟨rfl, (h₂ a).1 hsolves⟩)
      · have hold : g.Result f b' := by
          cases b' with
          | current => trivial
          | forked id' =>
            have hne : id' ≠ f.executor.nextStateId := fun heq ↦ hnew (by rw [heq])
            have hlt : id' < f.executor.nextStateId + 1 := hnext ▸ hb'.2
            exact ⟨hb'.1, Nat.lt_of_le_of_ne (Nat.le_of_lt_succ hlt) hne⟩
        have hz := (hw.stateAt?_eq b' heq hold.given).symm.trans hz
        exact .inr (.inr ⟨heq, h.only b' z hold hz hsolves⟩)
  by_cases heq : b₀ = b
  · subst heq
    obtain rfl := Option.some.inj (h.at_eq.symm.trans hat)
    by_cases hcond : a.val condition = 0
    · refine .inr (.inr ⟨rfl, rfl, hcond, ⟨hg, hnext ▸ Nat.lt_succ_self _⟩, hat₂, hid₂,
        (h₂ a).2 ⟨h.solves, hcond⟩, ?_⟩)
      intro b' s' hb' hs' hsolves
      obtain ⟨-, -, hne⟩ | ⟨heq, -⟩ | ⟨hne, heq⟩ := hwhere b' s' hb' hs' hsolves
      · exact (hne hcond).elim
      · exact heq
      · exact (hne heq).elim
    · refine .inr (.inl ⟨rfl, rfl, hcond, hresult.succ hnext, hat₁, hid₁.trans h.id_eq,
        (h₁ a).2 ⟨h.solves, hcond⟩, ?_⟩)
      intro b' s' hb' hs' hsolves
      obtain ⟨heq, -⟩ | ⟨-, -, hzero⟩ | ⟨-, heq⟩ := hwhere b' s' hb' hs' hsolves
      · exact heq
      · exact (hcond hzero).elim
      · exact heq
  · have hother : ¬I.Solves a s.constraints := fun hsolves ↦ heq (h.only b s hresult hat hsolves).symm
    refine .inl ⟨heq, h.result.succ hnext, (hw.stateAt?_eq b₀ heq h.result.given).trans h.at_eq, h.id_eq,
      h.solves, ?_⟩
    intro b' s' hb' hs' hsolves
    obtain ⟨-, hsolves, -⟩ | ⟨-, hsolves, -⟩ | ⟨-, heq⟩ := hwhere b' s' hb' hs' hsolves
    · exact (hother hsolves).elim
    · exact (hother hsolves).elim
    · exact heq

end Focus

end Symex
