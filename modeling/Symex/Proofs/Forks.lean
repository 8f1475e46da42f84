import Symex.Executor.Fork
import Symex.Proofs.Endings

namespace Symex

variable {σ : Type} {I : Inputs} {F : Fault → Prop}

/-! ## Places for both sides -/

namespace ProcessTree

variable {t : ProcessTree} {n m : NodeId}

theorem isLeaf_iff : t.isLeaf n = true ↔ ∃ p, t.nodes[n]? = some (some p) ∧ p.children = [] := by
  unfold isLeaf node?
  cases h : t.nodes[n]? with
  | none => simp
  | some o => cases o <;> simp

theorem lt_size_of_isLeaf (h : t.isLeaf n = true) : n < t.nodes.size := by
  obtain ⟨p, hp, -⟩ := isLeaf_iff.1 h
  exact (Array.getElem?_eq_some_iff.1 hp).1

theorem isLeaf_add (n : NodeId) (state : StateId) :
    (t.add [n] state).2.isLeaf (t.add [n] state).1 = true ∧
      ∀ m, m ≠ n → t.isLeaf m = true → (t.add [n] state).2.isLeaf m = true := by
  simp only [add, modify, List.foldl_cons, List.foldl_nil]
  constructor
  · refine isLeaf_iff.2 ⟨{ parents := [n], state := some state }, ?_, rfl⟩
    rw [Array.getElem?_push, if_pos (by simp)]
  · intro m hm hleaf
    have hlt := lt_size_of_isLeaf hleaf
    obtain ⟨p, hp, hchildren⟩ := isLeaf_iff.1 hleaf
    refine isLeaf_iff.2 ⟨p, ?_, hchildren⟩
    rw [Array.getElem?_push, if_neg (by simpa using Nat.ne_of_lt hlt), Array.getElem?_modify,
      if_neg (Ne.symm hm), hp]

/-- A state at `node` became two, which are at `left` and `right`: at new leaves, if it was at a leaf. The other
leaves are still leaves. -/
structure Halves (t : ProcessTree) (node left right : Option NodeId) (t' : ProcessTree) : Prop where
  leaf : ∀ n, left = some n ∨ right = some n → t'.isLeaf n = true ∧ t.nodes.size ≤ n
  apart : ∀ n, left = some n → right ≠ some n
  kept : ∀ m, t.isLeaf m = true → node ≠ some m → t'.isLeaf m = true
  size_le : t.nodes.size ≤ t'.nodes.size

theorem size_add (parent : NodeId) (state : StateId) :
    (t.add [parent] state).1 = t.nodes.size ∧ (t.add [parent] state).2.nodes.size = t.nodes.size + 1 := by
  simp [add, modify]

theorem exists_split (h : t.isLeaf n = true) (left right : StateId) :
    ∃ l r t', t.split n left right = .ok ((l, r), t') ∧ t.Halves (some n) (some l) (some r) t' := by
  obtain ⟨hleft, hkeep⟩ := t.isLeaf_add n left
  obtain ⟨hright, hkeep'⟩ := (t.add [n] left).2.isLeaf_add n right
  obtain ⟨hl, hsize⟩ := t.size_add n left
  obtain ⟨hr, hsize'⟩ := (t.add [n] left).2.size_add n right
  have hlt := lt_size_of_isLeaf h
  have hsplit : t.split n left right =
      .ok (((t.add [n] left).1, ((t.add [n] left).2.add [n] right).1), ((t.add [n] left).2.add [n] right).2) := by
    unfold split
    rw [demand_of h]
    rfl
  refine ⟨_, _, _, hsplit, ?_, ?_, fun m hm hne ↦ ?_, by omega⟩
  · rintro m (⟨⟨⟩⟩ | ⟨⟨⟩⟩)
    · exact ⟨hkeep' _ (hl ▸ Nat.ne_of_gt hlt) hleft, Nat.le_of_eq hl.symm⟩
    · refine ⟨hright, ?_⟩
      rw [hr, hsize]
      exact Nat.le_succ _
  · rintro m ⟨⟩ heq
    have heq := Option.some.inj heq
    rw [hr, hl, hsize] at heq
    exact Nat.succ_ne_self _ heq
  · have hne : m ≠ n := fun heq ↦ hne (by rw [heq])
    exact hkeep' m hne (hkeep m hne hm)

end ProcessTree

/-! ## States that can be forked -/

/-- Nothing that the program can see differs, nor what is known of its inputs. -/
structure State.SameData (s s' : State) : Prop where
  threads_eq : s'.threads = s.threads
  current_eq : s'.current = s.current
  nextThreadId_eq : s'.nextThreadId = s.nextThreadId
  waitLists_eq : s'.waitLists = s.waitLists
  nextWaitList_eq : s'.nextWaitList = s.nextWaitList
  objects_eq : s'.memory.objects = s.memory.objects
  pool_eq : s'.pool = s.pool
  symbolics_eq : s'.symbolics = s.symbolics

def State.divided (s : State) (id : StateId) (node : Option NodeId) (constraints : ConstraintSet)
    (side internal : Bool) : State :=
  { s with
    id, node, constraints
    depth := s.depth + 1
    memory := s.memory.fork
    path := if internal then s.path else s.path ++ [side] }

theorem State.sameData_divided (s : State) (id : StateId) (node : Option NodeId)
    (constraints : ConstraintSet) (side internal : Bool) :
    s.SameData (s.divided id node constraints side internal) :=
  ⟨rfl, rfl, rfl, rfl, rfl, rfl, rfl, rfl⟩

namespace Focus

variable {focus focus' : Focus σ}

/-- A policy keeps the machine from forking the state. -/
def Inhibited (focus : Focus σ) : Prop :=
  (focus.executor.config.maxMemoryInhibit = true ∧ focus.executor.atMemoryLimit = true) ∨
    focus.state.forkDisabled = true ∨ focus.executor.config.inhibitForking = true ∨
      ∃ n ∈ focus.executor.config.maxForks, n ≤ focus.executor.statistics.forks

/-- The state is live: its constraints have a solution, its id and those of the others were given out
before, and it is at a leaf of the process tree. -/
structure Live (I : Inputs) (focus : Focus σ) : Prop where
  valid : focus.state.constraints.Valid
  satisfiable : I.Satisfiable focus.state.constraints
  id_lt : focus.state.id < focus.executor.nextStateId
  states_lt : ∀ id ∈ focus.executor.states, id < focus.executor.nextStateId
  seeds_lt : ∀ id ∈ focus.executor.seeds, id < focus.executor.nextStateId
  leaf : ∀ n, focus.state.node = some n → focus.executor.tree.isLeaf n = true

/-- No state came up, and all others are as they were. -/
structure NoneAdded (focus focus' : Focus σ) : Prop where
  states_eq : focus'.executor.states = focus.executor.states
  added_eq : focus'.executor.added = focus.executor.added
  nextStateId_eq : focus'.executor.nextStateId = focus.executor.nextStateId

/-- One state came up, with an id that no state had, and all others are as they were. -/
structure OneAdded (focus focus' : Focus σ) (child : State) : Prop where
  fresh : child.id ∉ focus.executor.states ∧ child.id ≠ focus.state.id
  states_eq : focus'.executor.states = focus.executor.states.insert child.id child
  added_eq : focus'.executor.added = focus.executor.added ++ [child.id]
  nextStateId_eq : focus'.executor.nextStateId = focus.executor.nextStateId + 1

/-- The focus after one more side on the path, unless the fork is internal. -/
def recorded (focus : Focus σ) (side internal : Bool) : Focus σ :=
  if internal then focus
  else { focus with state := { focus.state with path := focus.state.path ++ [side] } }

end Focus

namespace Exec

variable {α : Type} {focus : Focus σ} {condition : Expr} {internal : Bool}

/-! ## Parts of a fork -/

theorem run_seeds? {seeds : Option (List Seed)} (h : focus.executor.seeds[focus.state.id]? = seeds) :
    (seeds? : Exec σ _).run.run focus = .ok (.ok seeds, focus) := by
  rw [← h]
  rfl

theorem ends_addConstraint {P : Except PathError Unit → Focus σ → Prop}
    (hvalid : focus.state.constraints.Valid) (hcond : condition.IsTruth)
    (hsat : ∃ a, I.Solves a focus.state.constraints ∧ a.val condition ≠ 0)
    (hseeds : focus.executor.seeds[focus.state.id]? = none)
    (h : ∀ c, c.Valid →
      (∀ a, I.Solves a c ↔ I.Solves a focus.state.constraints ∧ a.val condition ≠ 0) →
      P (.ok ()) { focus with state := { focus.state with constraints := c } }) :
    (addConstraint condition).Ends F focus P := by
  obtain ⟨c, hadd, hc, hsolves⟩ := hvalid.exists_add hcond hsat
  refine ends_bind_ok (run_updateState (s := { focus.state with constraints := c }) ?_) ?_
  · rw [State.addConstraint, hadd]
    rfl
  · exact ends_bind_ok (run_seeds? hseeds) (ends_pure (h c hc hsolves))

theorem ends_spawn {P : Except PathError State → Focus σ → Prop}
    (hleaf : ∀ n, focus.state.node = some n → focus.executor.tree.isLeaf n = true)
    (h : ∀ left right tree, focus.executor.tree.Halves focus.state.node left right tree →
      P (.ok { focus.state with
          id := focus.executor.nextStateId, depth := focus.state.depth + 1
          memory := focus.state.memory.fork, node := right })
        ⟨{ focus.executor with
            nextStateId := focus.executor.nextStateId + 1
            added := focus.executor.added ++ [focus.executor.nextStateId], tree },
          { focus.state with
            depth := focus.state.depth + 1, memory := focus.state.memory.fork, node := left }⟩) :
    (spawn : Exec σ State).Ends F focus P := by
  refine ends_bind_ok rfl ?_
  dsimp only [State.branch]
  cases hnode : focus.state.node with
  | none =>
    have hkept : focus.executor.tree.Halves focus.state.node none none focus.executor.tree :=
      ⟨by simp, nofun, fun _ h _ ↦ h, Nat.le_refl _⟩
    obtain ⟨e, s⟩ := focus
    cases s
    cases hnode
    exact ends_bind_ok rfl (ends_pure (h none none e.tree hkept))
  | some n =>
    obtain ⟨l, r, tree, hsplit, hhalves⟩ :=
      ProcessTree.exists_split (hleaf n hnode) focus.state.id focus.executor.nextStateId
    refine ends_bind (P := fun r' f ↦ r' = .ok ((l, r), tree) ∧ f = focus)
      (ends_lift (Checked.ends_of_eq hsplit ⟨rfl, rfl⟩)) (fun a f hf ↦ ?_) fun e f hf ↦ (nomatch hf.1)
    obtain ⟨⟨⟩, rfl⟩ := hf
    refine ends_bind_ok rfl (ends_pure ?_)
    exact h (some l) (some r) tree (hnode ▸ hhalves)

theorem run_recordSide (side internal : Bool) :
    (recordSide side internal).run.run focus = .ok (.ok (), focus.recorded side internal) := by
  cases internal <;> rfl

theorem run_forkInhibited (focus : Focus σ) : ∃ b : Bool,
    (forkInhibited).run.run focus = .ok (.ok b, focus) ∧ (b = true ↔ focus.Inhibited) := by
  refine ⟨_, rfl, ?_⟩
  cases h : focus.executor.config.maxForks <;> simp [Focus.Inhibited, or_assoc, h]

theorem ends_restrict {validity : Validity} {P : Except PathError Validity → Focus σ → Prop}
    (hreplay : internal = true ∨ focus.executor.replayPath = none)
    (hseeds : focus.executor.seeds[focus.state.id]? = none)
    (hkeep : validity ≠ .sometimes ∨ ¬focus.Inhibited → P (.ok validity) focus)
    (honly : validity = .sometimes → focus.Inhibited →
      (draw Rng.coin >>= takeSide condition).Ends F focus P) :
    (restrict condition internal validity).Ends F focus P := by
  refine ends_bind_ok rfl (ends_bind_ok rfl ?_)
  rw [if_neg]
  · split
    · rename_i hsometimes
      rw [hseeds]
      obtain ⟨b, hb, hiff⟩ := run_forkInhibited focus
      refine ends_bind_ok hb ?_
      cases b with
      | true => exact honly hsometimes (hiff.1 rfl)
      | false => exact ends_pure (hkeep (.inr fun h ↦ nomatch hiff.2 h))
    · exact ends_pure (hkeep (.inl ‹_›))
  · obtain rfl | hreplay := hreplay
    · simp
    · simp [hreplay]

/-! ## Forks -/

section

variable (hvalid : focus.state.constraints.Valid) (hsat : I.Satisfiable focus.state.constraints)
  (hcond : condition.IsTruth) (hseeds : focus.executor.seeds[focus.state.id]? = none)
include hvalid hcond hseeds

variable (focus) in
theorem ends_takeSide {side : Bool} {P : Except PathError Validity → Focus σ → Prop}
    (hside : ∃ a, I.Solves a focus.state.constraints ∧ (a.val condition ≠ 0 ↔ side = true))
    (h : ∀ c, c.Valid →
      (∀ a, I.Solves a c ↔ I.Solves a focus.state.constraints ∧ (a.val condition ≠ 0 ↔ side = true)) →
      P (.ok (if side then .always else .never))
        { focus with state := { focus.state with constraints := c } }) :
    (takeSide condition side).Ends F focus P := by
  have hval : ∀ {a}, I.Solves a focus.state.constraints →
      (a.val (if side then condition else condition.isZero) ≠ 0 ↔ (a.val condition ≠ 0 ↔ side = true)) := by
    intro a ha
    cases side with
    | true => simp
    | false => simp [Expr.val_isZero ha.free hcond.1]
  have htruth : (if side then condition else condition.isZero).IsTruth := by
    cases side with
    | true => exact hcond
    | false => exact hcond.isZero
  obtain ⟨a, ha, hside⟩ := hside
  refine ends_bind (ends_addConstraint hvalid htruth ⟨a, ha, (hval ha).2 hside⟩ hseeds
    (P := fun r f ↦ r = .ok () ∧ P (.ok (if side then .always else .never)) f)
    fun c hc hsolves ↦ ⟨rfl, h c hc fun b ↦ ?_⟩) (fun _ f hf ↦ ends_pure hf.2) fun e f hf ↦ (nomatch hf.1)
  rw [hsolves]
  exact and_congr_right hval

variable (focus) in
include hsat in
/-- A condition that holds always or never leaves the state as it is. One that may go either way divides
it, or, where that is inhibited, restricts it to one side. -/
theorem ends_fork {P : Except PathError Sides → Focus σ → Prop}
    (hexact : focus.executor.solver.backend.Exact I False)
    (hreplay : internal = true ∨ focus.executor.replayPath = none)
    (halways : ∀ solver, focus.executor.solver.Same solver →
      (∀ a, I.Solves a focus.state.constraints → a.val condition ≠ 0) →
      P (.ok (some .current, none)) ((focus.withSolver solver).recorded true internal))
    (hnever : ∀ solver, focus.executor.solver.Same solver →
      (∀ a, I.Solves a focus.state.constraints → a.val condition = 0) →
      P (.ok (none, some .current)) ((focus.withSolver solver).recorded false internal))
    (hboth : ∀ solver, focus.executor.solver.Same solver →
      (∃ a, I.Solves a focus.state.constraints ∧ a.val condition ≠ 0) →
      (∃ a, I.Solves a focus.state.constraints ∧ a.val condition = 0) → ¬focus.Inhibited →
      (split condition internal).Ends F (focus.withSolver solver) P)
    (honly : ∀ solver, focus.executor.solver.Same solver →
      (∃ a, I.Solves a focus.state.constraints ∧ a.val condition ≠ 0) →
      (∃ a, I.Solves a focus.state.constraints ∧ a.val condition = 0) → focus.Inhibited →
      ∀ (side : Bool) rng c, c.Valid →
        (∀ a, I.Solves a c ↔ I.Solves a focus.state.constraints ∧ (a.val condition ≠ 0 ↔ side = true)) →
        P (.ok (if side then (some .current, none) else (none, some .current)))
          (Focus.recorded ⟨{ focus.executor with solver, rng },
            { focus.state with constraints := c }⟩ side internal)) :
    (fork condition internal).Ends F focus P := by
  refine ends_seq (ends_query (Solver.answers_evaluate hvalid hsat hcond.1) hexact
    (fun v solver hsame htells ↦ ?_) fun _ _ hf ↦ hf.elim)
  have htrue : v = .sometimes → ∃ a, I.Solves a focus.state.constraints ∧ a.val condition ≠ 0 := by
    rintro rfl
    simpa using mt htells.never_iff.2 (by decide)
  have hfalse : v = .sometimes → ∃ a, I.Solves a focus.state.constraints ∧ a.val condition = 0 := by
    rintro rfl
    simpa using mt htells.always_iff.2 (by decide)
  refine ends_seq (ends_restrict hreplay hseeds (fun hkeep ↦ ?_) fun hv hinh ↦ ?_)
  · cases v with
    | always =>
      exact ends_bind_ok (run_recordSide true internal)
        (ends_pure (halways solver hsame (htells.always_iff.1 rfl)))
    | never =>
      exact ends_bind_ok (run_recordSide false internal)
        (ends_pure (hnever solver hsame (htells.never_iff.1 rfl)))
    | sometimes =>
      exact hboth solver hsame (htrue rfl) (hfalse rfl) (hkeep.resolve_left fun h ↦ h rfl)
  · refine ends_seq (ends_draw ?_)
    obtain ⟨side, rng⟩ := Rng.coin _
    refine ends_takeSide ⟨{ focus.executor with solver, rng }, focus.state⟩ (I := I) hvalid hcond
      hseeds ?_ fun c hc hsolves ↦ ?_
    · cases side with
      | true => simpa using htrue hv
      | false => simpa using hfalse hv
    · have h := honly solver hsame (htrue hv) (hfalse hv) hinh side rng c hc hsolves
      cases side with
      | true => exact ends_bind_ok (run_recordSide true internal) (ends_pure h)
      | false => exact ends_bind_ok (run_recordSide false internal) (ends_pure h)

variable (focus) in
theorem ends_split_halves {P : Except PathError Sides → Focus σ → Prop}
    (htrue : ∃ a, I.Solves a focus.state.constraints ∧ a.val condition ≠ 0)
    (hfalse : ∃ a, I.Solves a focus.state.constraints ∧ a.val condition = 0)
    (hleaf : ∀ n, focus.state.node = some n → focus.executor.tree.isLeaf n = true)
    (hfresh : focus.executor.seeds[focus.executor.nextStateId]? = none)
    (hdepth : focus.executor.config.maxDepth = 0)
    (h : ∀ left right tree c₁ c₂, focus.executor.tree.Halves focus.state.node left right tree →
      c₁.Valid → c₂.Valid →
      (∀ a, I.Solves a c₁ ↔ I.Solves a focus.state.constraints ∧ a.val condition ≠ 0) →
      (∀ a, I.Solves a c₂ ↔ I.Solves a focus.state.constraints ∧ a.val condition = 0) →
      P (.ok (some .current, some (.forked focus.executor.nextStateId)))
        ⟨{ focus.executor with
            statistics.forks := focus.executor.statistics.forks + 1
            nextStateId := focus.executor.nextStateId + 1
            added := focus.executor.added ++ [focus.executor.nextStateId]
            tree
            states := focus.executor.states.insert focus.executor.nextStateId
              (focus.state.divided focus.executor.nextStateId right c₂ false internal) },
          focus.state.divided focus.state.id left c₁ true internal⟩) :
    (split condition internal).Ends F focus P := by
  refine ends_bind_ok rfl (ends_seq (ends_spawn hleaf fun left right tree hhalves ↦ ?_))
  refine ends_bind_ok rfl (ends_bind_ok (run_seeds? hseeds) (ends_bind_ok (run_recordSide true internal) ?_))
  have hval : ∀ {a}, I.Solves a focus.state.constraints →
      (a.val condition.isZero ≠ 0 ↔ a.val condition = 0) := by
    intro a ha
    simp [Expr.val_isZero ha.free hcond.1]
  refine ends_seq (ends_addConstraint (I := I) ?_ hcond ?_ ?_ fun c₁ hc₁ hsolves₁ ↦ ?_)
  · cases internal <;> exact hvalid
  · cases internal <;> exact htrue
  · cases internal <;> exact hseeds
  refine ends_seq (ends_within (ends_bind_ok (run_recordSide false internal)
    (ends_addConstraint (I := I) ?_ hcond.isZero ?_ ?_ fun c₂ hc₂ hsolves₂ ↦ ?_)))
  · cases internal <;> exact hvalid
  · obtain ⟨a, ha, hne⟩ := hfalse
    cases internal <;> exact ⟨a, ha, (hval ha).2 hne⟩
  · cases internal <;> exact hfresh
  refine ends_bind_ok rfl (ends_bind_ok rfl (ends_bind_ok rfl ?_))
  rw [if_neg]
  · have hP := h left right tree c₁ c₂ hhalves hc₁ hc₂
    cases internal <;> exact ends_bind_ok rfl (ends_pure (hP hsolves₁ fun a ↦
      (hsolves₂ a).trans (and_congr_right hval)))
  · cases internal <;> exact fun hmax ↦ hmax.1 hdepth

variable (focus) in
theorem ends_split {P : Except PathError Sides → Focus σ → Prop}
    (htrue : ∃ a, I.Solves a focus.state.constraints ∧ a.val condition ≠ 0)
    (hfalse : ∃ a, I.Solves a focus.state.constraints ∧ a.val condition = 0)
    (hleaf : ∀ n, focus.state.node = some n → focus.executor.tree.isLeaf n = true)
    (hfresh : focus.executor.seeds[focus.executor.nextStateId]? = none)
    (hdepth : focus.executor.config.maxDepth = 0)
    (h : ∀ left right tree c₁ c₂, (∀ n, left = some n → tree.isLeaf n = true) →
      (∀ n, right = some n → tree.isLeaf n = true) → c₁.Valid → c₂.Valid →
      (∀ a, I.Solves a c₁ ↔ I.Solves a focus.state.constraints ∧ a.val condition ≠ 0) →
      (∀ a, I.Solves a c₂ ↔ I.Solves a focus.state.constraints ∧ a.val condition = 0) →
      P (.ok (some .current, some (.forked focus.executor.nextStateId)))
        ⟨{ focus.executor with
            statistics.forks := focus.executor.statistics.forks + 1
            nextStateId := focus.executor.nextStateId + 1
            added := focus.executor.added ++ [focus.executor.nextStateId]
            tree
            states := focus.executor.states.insert focus.executor.nextStateId
              (focus.state.divided focus.executor.nextStateId right c₂ false internal) },
          focus.state.divided focus.state.id left c₁ true internal⟩) :
    (split condition internal).Ends F focus P :=
  ends_split_halves focus hvalid hcond hseeds htrue hfalse hleaf hfresh hdepth
    fun left right tree c₁ c₂ hhalves ↦ h left right tree c₁ c₂ (fun n hn ↦ (hhalves.leaf n (.inl hn)).1)
      fun n hn ↦ (hhalves.leaf n (.inr hn)).1

end

/-- A fork divides the solutions of a live state by a condition, and loses none. Where the condition holds
in all of them or in none the state goes on as it is. Where it may go either way and nothing stands in the
way, there is one new state, and both have the data of the old one; otherwise the state goes on with the
solutions of one side. -/
theorem fork_divides_solutions (hlive : focus.Live I)
    (hexact : focus.executor.solver.backend.Exact I False) (hcond : condition.IsTruth)
    (hreplay : focus.executor.replayPath = none)
    (hseeds : focus.executor.seeds[focus.state.id]? = none) (internal : Bool) :
    ((∀ a, I.Solves a focus.state.constraints → a.val condition ≠ 0) →
      (fork condition internal).Returns focus fun sides focus' ↦
        sides = (some .current, none) ∧ focus.NoneAdded focus' ∧
          focus'.state.constraints = focus.state.constraints) ∧
    ((∀ a, I.Solves a focus.state.constraints → a.val condition = 0) →
      (fork condition internal).Returns focus fun sides focus' ↦
        sides = (none, some .current) ∧ focus.NoneAdded focus' ∧
          focus'.state.constraints = focus.state.constraints) ∧
    ((∃ a, I.Solves a focus.state.constraints ∧ a.val condition ≠ 0) →
      (∃ a, I.Solves a focus.state.constraints ∧ a.val condition = 0) →
      (¬focus.Inhibited → focus.executor.config.maxDepth = 0 →
        (fork condition internal).Returns focus fun sides focus' ↦ ∃ child,
          sides = (some .current, some (.forked child.id)) ∧ focus.OneAdded focus' child ∧
            (∀ a, I.Solves a focus'.state.constraints ↔
              I.Solves a focus.state.constraints ∧ a.val condition ≠ 0) ∧
            (∀ a, I.Solves a child.constraints ↔
              I.Solves a focus.state.constraints ∧ a.val condition = 0) ∧
            focus.state.SameData focus'.state ∧ focus.state.SameData child) ∧
      (focus.Inhibited → (fork condition internal).Returns focus fun sides focus' ↦ ∃ side : Bool,
        sides = (if side then (some .current, none) else (none, some .current)) ∧
          focus.NoneAdded focus' ∧
          ∀ a, I.Solves a focus'.state.constraints ↔
            I.Solves a focus.state.constraints ∧ (a.val condition ≠ 0 ↔ side = true))) := by
  obtain ⟨a₀, ha₀⟩ := hlive.satisfiable
  have hfresh : ∀ {β : Type} {m : Std.TreeMap StateId β},
      (∀ id ∈ m, id < focus.executor.nextStateId) → focus.executor.nextStateId ∉ m :=
    fun hlt hmem ↦ Nat.lt_irrefl _ (hlt _ hmem)
  have hfork {P : Except PathError Sides → Focus σ → Prop} := ends_fork focus (F := fun _ ↦ False) (P := P)
    hlive.valid hlive.satisfiable hcond hseeds hexact (.inr hreplay (a := internal = true))
  refine ⟨fun hall ↦ returns_of_ends (hfork ?_ ?_ ?_ ?_), fun hnone ↦ returns_of_ends (hfork ?_ ?_ ?_ ?_),
    fun htrue hfalse ↦ ⟨fun hfree hdepth ↦ returns_of_ends (hfork ?_ ?_ ?_ ?_),
      fun hinh ↦ returns_of_ends (hfork ?_ ?_ ?_ ?_)⟩⟩
  -- the condition holds in every solution
  · intro solver _ _
    refine ⟨_, rfl, rfl, ?_⟩
    cases internal <;> exact ⟨⟨rfl, rfl, rfl⟩, rfl⟩
  · exact fun _ _ hnone ↦ absurd (hnone a₀ ha₀) (hall a₀ ha₀)
  · exact fun _ _ _ ⟨a, ha, hzero⟩ ↦ absurd hzero (hall a ha)
  · exact fun _ _ _ ⟨a, ha, hzero⟩ ↦ absurd hzero (hall a ha)
  -- it holds in none
  · exact fun _ _ hall ↦ absurd (hnone a₀ ha₀) (hall a₀ ha₀)
  · intro solver _ _
    refine ⟨_, rfl, rfl, ?_⟩
    cases internal <;> exact ⟨⟨rfl, rfl, rfl⟩, rfl⟩
  · exact fun _ _ ⟨a, ha, hne⟩ ↦ absurd (hnone a ha) hne
  · exact fun _ _ ⟨a, ha, hne⟩ ↦ absurd (hnone a ha) hne
  -- it may go either way, and the state can be forked
  · exact fun _ _ hall ↦ absurd hfalse.choose_spec.2 (hall _ hfalse.choose_spec.1)
  · exact fun _ _ hnone ↦ absurd (hnone _ htrue.choose_spec.1) htrue.choose_spec.2
  · intro solver _ _ _ _
    refine ends_split (focus.withSolver solver) (I := I) hlive.valid hcond hseeds htrue hfalse
      hlive.leaf (Std.TreeMap.getElem?_eq_none (hfresh hlive.seeds_lt)) hdepth ?_
    intro left right tree c₁ c₂ _ _ _ _ hsolves₁ hsolves₂
    exact ⟨_, rfl, focus.state.divided focus.executor.nextStateId right c₂ false internal, rfl,
      ⟨⟨hfresh hlive.states_lt, Nat.ne_of_gt hlive.id_lt⟩, rfl, rfl, rfl⟩, hsolves₁, hsolves₂,
      State.sameData_divided .., State.sameData_divided ..⟩
  · exact fun _ _ _ _ hinh ↦ absurd hinh hfree
  -- it may go either way, and only one side can be taken
  · exact fun _ _ hall ↦ absurd hfalse.choose_spec.2 (hall _ hfalse.choose_spec.1)
  · exact fun _ _ hnone ↦ absurd (hnone _ htrue.choose_spec.1) htrue.choose_spec.2
  · exact fun _ _ _ _ hfree ↦ absurd hinh hfree
  · intro solver _ _ _ _ side rng c _ hsolves
    refine ⟨_, rfl, side, rfl, ?_⟩
    cases internal <;> exact ⟨⟨rfl, rfl, rfl⟩, hsolves⟩

def lowBit : Expr := .extract (.read (.base (.symbolic "x" 1)) (.const 0 32)) 0 1

/-- A machine at its start, with a solver that always answers. -/
noncomputable def unforked : Focus Unit where
  executor := {
    program := ⟨#[], #[], #[], 0⟩
    solver := { backend := .omniscient .all, state := () }
    allocator := { maxSize := 0 }
    states := {}
    tree := .ofState 0
    rng := .ofSeed 1 }
  state := { State.start 0 0 0 with node := some ProcessTree.root }

/-- The first fork on a bit that is not known makes the state with the id 1. -/
theorem fork_divides_solutions_low_bit : (fork lowBit false).Returns unforked fun sides focus' ↦
    ∃ child, sides = (some .current, some (.forked child.id)) ∧ unforked.OneAdded focus' child ∧
      (∀ a, Inputs.all.Solves a focus'.state.constraints ↔
        Inputs.all.Solves a unforked.state.constraints ∧ a.val lowBit ≠ 0) ∧
      (∀ a, Inputs.all.Solves a child.constraints ↔
        Inputs.all.Solves a unforked.state.constraints ∧ a.val lowBit = 0) ∧
      unforked.state.SameData focus'.state ∧ unforked.state.SameData child := by
  have hlive : unforked.Live .all := {
    valid := ConstraintSet.valid_empty
    satisfiable := Inputs.satisfiable_empty _
    id_lt := by decide
    states_lt := by simp [unforked]
    seeds_lt := by simp [unforked]
    leaf := by
      rintro n ⟨⟩
      rfl }
  have hcond : lowBit.IsTruth := by
    simp [lowBit, Expr.IsTruth, Expr.WellFormed, Updates.WellFormed]
  have hsolves : ∀ a : Assignment, a.free = true → Inputs.all.Solves a unforked.state.constraints :=
    fun a ha ↦ ⟨ha, by simp [unforked, State.start, ConstraintSet.toList]⟩
  refine ((fork_divides_solutions hlive (Backend.exact_omniscient _ _) hcond rfl ?_ false).2.2
    ⟨Assignment.bind ⟨true, {}⟩ "x" ⟨#[1]⟩, hsolves _ rfl, ?_⟩ ⟨⟨true, {}⟩, hsolves _ rfl, ?_⟩).1 ?_ rfl
  · simp [unforked]
  · decide +kernel
  · decide +kernel
  · simp [Focus.Inhibited, unforked, State.start]

end Exec

end Symex
