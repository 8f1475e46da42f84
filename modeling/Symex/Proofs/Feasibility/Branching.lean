import Symex.Proofs.Feasibility.Work

namespace Symex

open Checked

variable {σ α β : Type} {I : Trust}

/-- The truth value can go either way, if answers are right. -/
structure ConstraintSet.Open (I : Trust) (c : ConstraintSet) (e : Expr) : Prop where
  holds : I.right → ∃ a, I.Solves a c ∧ a.val e ≠ 0
  fails : I.right → ∃ a, I.Solves a c ∧ a.val e = 0

theorem Validity.Tells.isOpen {c : ConstraintSet} {e : Expr}
    (h : I.right → sometimes.Tells I.toInputs c e) : c.Open I e where
  holds hright := by simpa using mt (h hright).never_iff.2 (by decide)
  fails hright := by simpa using mt (h hright).always_iff.2 (by decide)

theorem ConstraintSet.Open.side {c : ConstraintSet} {e : Expr} (h : c.Open I e) (he : e.IsTruth)
    (side : Bool) : (if side then e else e.isZero).IsTruth ∧
      (I.right → ∃ a, I.Solves a c ∧ a.val (if side then e else e.isZero) ≠ 0) := by
  cases side with
  | true => exact ⟨he, h.holds⟩
  | false =>
    refine ⟨he.isZero, fun hright ↦ ?_⟩
    obtain ⟨a, ha, hzero⟩ := h.fails hright
    exact ⟨a, ha, by simp [Expr.val_isZero ha.free he.1, hzero]⟩

namespace Exec

variable {focus : Focus σ} {condition : Expr} {internal : Bool}

/-- From here the work keeps the machine sound and runs into no contradiction unless answers may be wrong,
and `Q` holds of its result and of what becomes of the focus. -/
abbrev KeepsAt (I : Trust) (x : Exec σ α) (focus : Focus σ) (Q : α → Focus σ → Prop) : Prop :=
  x.Ends I.Bears focus fun r f ↦ f.Sound I ∧ ∀ a, r = .ok a → Q a f

variable {x : Exec σ α} {k : α → Exec σ β} {Q Q' : α → Focus σ → Prop} {T : β → Focus σ → Prop}

theorem keepsAt_pure {a : α} (hf : focus.Sound I) (h : Q a focus) :
    (pure a : Exec σ α).KeepsAt I focus Q :=
  ends_pure ⟨hf, by rintro _ ⟨⟩; exact h⟩

theorem keepsAt_fail (e : ExecError) (hf : focus.Sound I) : (fail e : Exec σ α).KeepsAt I focus Q :=
  ends_fail ⟨hf, nofun⟩

theorem keepsAt_bind (hx : x.KeepsAt I focus Q)
    (hk : ∀ a f, f.Sound I → Q a f → (k a).KeepsAt I f T) : (x >>= k).KeepsAt I focus T :=
  ends_bind hx (fun a f h ↦ hk a f h.1 (h.2 a rfl)) fun _ _ h ↦ ⟨h.1, nofun⟩

theorem KeepsAt.mono (hx : x.KeepsAt I focus Q) (h : ∀ a f, Q a f → Q' a f) :
    x.KeepsAt I focus Q' :=
  Ends.mono hx fun _ f hr ↦ ⟨hr.1, fun a ha ↦ h a f (hr.2 a ha)⟩

theorem Keeps.here {R : α → Prop} (hx : x.Keeps I R) (hf : focus.Sound I) :
    x.KeepsAt I focus fun a _ ↦ R a :=
  hx focus hf

theorem keepsAt_lift {c : Checked α} {P : α → Prop} (h : Safe c P) (hf : focus.Sound I) :
    (liftM c : Exec σ α).KeepsAt I focus fun a f ↦ f = focus ∧ P a :=
  ends_lift (h.bears.mono fun _ ha ↦ ⟨hf, by rintro _ ⟨⟩; exact ⟨rfl, ha⟩⟩)

theorem keepsAt_updateState {f : State → Checked State} {Q : Focus σ → Prop} (hf : focus.Sound I)
    (hsafe : Safe (f focus.state) (State.Sound I))
    (h : ∀ s, f focus.state = .ok s → Q { focus with state := s }) :
    (updateState f : Exec σ Unit).KeepsAt I focus fun _ f ↦ Q f :=
  ends_updateState (Checked.Ends.and hsafe.bears (ends_true_iff.2 h) |>.mono fun _ h ↦
    ⟨⟨hf.executor, h.1⟩, fun _ _ ↦ h.2⟩)

theorem keepsAt_ask {question : ConstraintSet → Ask σ α} {R : α → Prop}
    (hq : I.right → (question focus.state.constraints).Answers I.toInputs True R) (hf : focus.Sound I) :
    (ask question).KeepsAt I focus fun r f ↦ f.state = focus.state ∧ (I.right → ∀ a, r = .ok a → R a) :=
  (ends_ask_sound hq hf).mono fun _ _ h ↦
    ⟨h.1, by rintro r rfl; exact ⟨h.2.1, fun hright a ha ↦ h.2.2 hright a (congrArg _ ha)⟩⟩

theorem keepsAt_query {question : ConstraintSet → Ask σ α} {R : α → Prop}
    (hq : I.right → (question focus.state.constraints).Answers I.toInputs True R) (hf : focus.Sound I) :
    (query question).KeepsAt I focus fun a f ↦ f.state = focus.state ∧ (I.right → R a) :=
  ends_query_sound hq hf

theorem keepsAt_value {e : Expr} (he : e.WellFormed) (hf : focus.Sound I) :
    (query (Solver.value · e)).KeepsAt I focus fun v f ↦ (v.WellFormed ∧ v.width = e.width) ∧
      f.state = focus.state ∧ (I.right → Solver.Example I.toInputs focus.state.constraints e v) :=
  (Ends.and (keeps_value he focus hf) (keepsAt_query (fun hright ↦
    Solver.answers_value hf.state.valid (hf.state.satisfiable hright) he) hf)).mono
      fun _ _ h ↦ ⟨h.1.1, fun v hv ↦ ⟨h.1.2 v hv, h.2.2 v hv⟩⟩

theorem keepsAt_forIn {γ : Type} {body : γ → β → Exec σ (ForInStep β)} {l : List γ} {b : β}
    {J : List γ → β → Focus σ → Prop} (hf : focus.Sound I) (h : J l b focus)
    (hstep : ∀ x rest b f, f.Sound I → J (x :: rest) b f →
      (body x b).KeepsAt I f fun r f' ↦ ∃ b', r = .yield b' ∧ J rest b' f') :
    (forIn l b body : Exec σ β).KeepsAt I focus fun b' f ↦ J [] b' f := by
  induction l generalizing b focus with
  | nil => exact keepsAt_pure hf h
  | cons x l ih =>
    rw [List.forIn_cons]
    refine keepsAt_bind (hstep x l b focus hf h) ?_
    rintro _ f hf ⟨b', rfl, hb'⟩
    exact ih hf hb'

theorem keepsAt_foldlM {γ : Type} {body : β → γ → Exec σ β} {l : List γ} {b : β}
    {J : β → Focus σ → Prop} (hf : focus.Sound I) (h : J b focus)
    (hstep : ∀ b x f, f.Sound I → J b f → (body b x).KeepsAt I f J) :
    (l.foldlM body b).KeepsAt I focus J := by
  induction l generalizing b focus with
  | nil => exact keepsAt_pure hf h
  | cons x l ih =>
    rw [List.foldlM_cons]
    exact keepsAt_bind (hstep b x focus hf h) fun b' f hf hb' ↦ ih hf hb'

theorem Keeps.at {R : α → Prop} (hx : x.Keeps I R) (own : Prop) (hl : x.Leaves own)
    (hf : focus.Sound I) : x.KeepsAt I focus fun a f ↦ R a ∧ focus.Unmoved own f :=
  ((hx focus hf).and (hl focus)).mono fun _ _ h ↦ ⟨h.1.1, fun a ha ↦ ⟨h.1.2 a ha, h.2⟩⟩

/-! ## Seeds -/

theorem keeps_seeds? : (seeds? : Exec σ _).Keeps I fun _ ↦ True :=
  keeps_bind keeps_get fun _ _ ↦ keeps_pure trivial

theorem leaves_seeds? {own : Prop} : (seeds? : Exec σ _).Leaves own := fun _ ↦
  ends_bind_ok rfl (ends_pure (.refl _))

theorem keeps_setSeeds (id : StateId) (seeds : List Seed) :
    (setSeeds id seeds : Exec σ Unit).Keeps I fun _ ↦ True :=
  keeps_modifyReports (fun _ ↦ rfl) (fun _ ↦ rfl) fun _ ↦ rfl

theorem leaves_setSeeds {own : Prop} (id : StateId) (seeds : List Seed) :
    (setSeeds id seeds : Exec σ Unit).Leaves own :=
  leaves_modifyExecutor (fun _ ↦ rfl) fun _ ↦ rfl

theorem keeps_dropSeeds (id : StateId) : (dropSeeds id : Exec σ Unit).Keeps I fun _ ↦ True :=
  keeps_modifyReports (fun _ ↦ rfl) (fun _ ↦ rfl) fun _ ↦ rfl

theorem leaves_dropSeeds {own : Prop} (id : StateId) : (dropSeeds id : Exec σ Unit).Leaves own :=
  leaves_modifyExecutor (fun _ ↦ rfl) fun _ ↦ rfl

theorem keeps_patchSeeds (condition : Expr) :
    (patchSeeds condition : Exec σ Unit).Keeps I fun _ ↦ True := by
  refine keeps_bind keeps_seeds? fun o _ ↦ ?_
  split
  · split
    · exact keeps_pure trivial
    · refine keeps_bind keeps_state fun s _ ↦ keeps_bind (keeps_query fun c hc hsat ↦
        Solver.answers_initialValues hc hsat s.arrays) fun o _ ↦ ?_
      split
      · exact keeps_setSeeds _ _
      · exact keeps_pure trivial
  · exact keeps_pure trivial

theorem leaves_patchSeeds {own : Prop} (condition : Expr) :
    (patchSeeds condition : Exec σ Unit).Leaves own := by
  refine leaves_bind leaves_seeds? fun o ↦ ?_
  split
  · split
    · exact leaves_pure _
    · refine leaves_bind leaves_state fun s ↦ leaves_bind (leaves_query _) fun o ↦ ?_
      split
      · exact leaves_setSeeds _ _
      · exact leaves_pure _
  · exact leaves_pure _

/-! ## Constraints -/

theorem leaves_addConstraint (condition : Expr) :
    (addConstraint condition : Exec σ Unit).Leaves False :=
  leaves_bind (leaves_updateState _) fun _ ↦ leaves_patchSeeds condition

theorem keepsAt_addConstraint (hf : focus.Sound I) (hcond : condition.IsTruth)
    (hsat : I.right → ∃ a, I.Solves a focus.state.constraints ∧ a.val condition ≠ 0) :
    (addConstraint condition).KeepsAt I focus fun _ _ ↦ True := by
  refine keepsAt_bind (Q := fun _ _ ↦ True) (ends_updateState ?_) fun _ f hf _ ↦
    (keeps_patchSeeds condition f hf).mono fun _ _ h ↦ ⟨h.1, fun _ _ ↦ trivial⟩
  exact (hf.state.ends_addConstraint hcond hsat).mono fun _ hs ↦ ⟨⟨hf.executor, hs⟩, fun _ _ ↦ trivial⟩

theorem keepsAt_takeSide (hf : focus.Sound I) (hcond : condition.IsTruth)
    (hopen : focus.state.constraints.Open I condition) (side : Bool) :
    (takeSide condition side).KeepsAt I focus fun v _ ↦ v ≠ .sometimes := by
  obtain ⟨htruth, hsat⟩ := hopen.side hcond side
  refine keepsAt_bind (keepsAt_addConstraint hf htruth hsat) fun _ f hf _ ↦ keepsAt_pure hf ?_
  split <;> decide

theorem keeps_toConstant {e : Expr} (he : e.WellFormed) : (toConstant e : Exec σ Expr).Keeps I
    fun v ↦ v.WellFormed ∧ v.width = e.width := by
  intro focus hf
  unfold toConstant
  split
  · exact keepsAt_pure hf ⟨he, rfl⟩
  · refine keepsAt_bind (keepsAt_value he hf) ?_
    rintro v f hf ⟨hwf, hstate, hv⟩
    refine keepsAt_bind (keepsAt_lift (Expr.safe_mkEq he hwf.1) hf) ?_
    rintro c _ hf ⟨rfl, hc, hval⟩
    refine keepsAt_bind (keepsAt_addConstraint hf hc fun hright ↦ ?_) fun _ f hf _ ↦ keepsAt_pure hf hwf
    obtain ⟨a, ha, heq⟩ := (hv hright).attained
    exact ⟨a, hstate ▸ ha, (hval a ha.free).2 heq⟩

theorem keepsAt_toUnique {e : Expr} (he : e.WellFormed) (hf : focus.Sound I) :
    (toUnique e).KeepsAt I focus fun v f ↦ (v.WellFormed ∧ v.width = e.width) ∧ f.state = focus.state ∧
      (I.right → ∀ a, I.Solves a focus.state.constraints → a.val v = a.val e) := by
  unfold toUnique
  split
  · exact keepsAt_pure hf ⟨⟨he, rfl⟩, rfl, fun _ _ _ ↦ rfl⟩
  · refine keepsAt_bind (Q := fun r f ↦ (∀ v, r = .ok v → v.WellFormed ∧ v.width = e.width) ∧
      f.state = focus.state) (Ends.and (keeps_ask_value he focus hf) (keepsAt_ask (fun hright ↦
        Solver.answers_value hf.state.valid (hf.state.satisfiable hright) he) hf) |>.mono fun _ _ h ↦
          ⟨h.1.1, fun r hr ↦ ⟨h.1.2 r hr, (h.2.2 r hr).1⟩⟩) ?_
    rintro r f hf ⟨hr, hstate⟩
    split
    · exact keepsAt_pure hf ⟨⟨he, rfl⟩, hstate, fun _ _ _ ↦ rfl⟩
    · rename_i v
      have hv := hr v rfl
      refine keepsAt_bind (keepsAt_lift (Expr.safe_mkEq he hv.1) hf) ?_
      rintro c _ hf ⟨rfl, hc, hval⟩
      refine keepsAt_bind (keepsAt_ask (fun hright ↦ Solver.answers_mustBeTrue hf.state.valid
        (hf.state.satisfiable hright) hc.1) hf) ?_
      rintro r f' hf' ⟨hstate', hmust⟩
      split
      · refine keepsAt_pure hf' ⟨hv, hstate'.trans hstate, fun hright a ha ↦ ?_⟩
        exact ((hval a ha.free).1 ((hmust hright true rfl).1 rfl a (hstate ▸ ha))).symm
      · exact keepsAt_pure hf' ⟨⟨he, rfl⟩, hstate'.trans hstate, fun _ _ _ ↦ rfl⟩

theorem keeps_toUnique {e : Expr} (he : e.WellFormed) : (toUnique e : Exec σ Expr).Keeps I
    fun v ↦ v.WellFormed ∧ v.width = e.width := fun _ hf ↦
  (keepsAt_toUnique he hf).mono fun _ _ h ↦ h.1

/-! ## Forks -/

theorem keepsAt_restrict {v : Validity} (hf : focus.Sound I) (hcond : condition.IsTruth)
    (hv : v = .sometimes → focus.state.constraints.Open I condition) :
    (restrict condition internal v).KeepsAt I focus fun v' f ↦
      v' = .sometimes → f.state.constraints.Open I condition := by
  have htake : ∀ {f : Focus σ}, f.Sound I → f.state = focus.state → v = .sometimes → ∀ side,
      (takeSide condition side).KeepsAt I f fun v' f ↦
        v' = .sometimes → f.state.constraints.Open I condition := fun {f} hf hstate hsome side ↦
    (keepsAt_takeSide hf hcond (hstate ▸ hv hsome) side).mono fun _ _ hne h ↦ absurd h hne
  refine ends_bind_ok rfl (ends_bind_ok rfl ?_)
  split
  -- a path is replayed
  · refine ends_bind_ok rfl ?_
    split
    · exact keepsAt_pure hf hv
    · exact keepsAt_fail _ hf
    · rename_i side rest _
      refine ends_bind_ok rfl ?_
      have hf' : Focus.Sound I { focus with executor := { focus.executor with replayPath := some rest } } :=
        ⟨⟨hf.executor.exact, hf.executor.constants, hf.executor.states⟩, hf.state⟩
      split
      · exact keepsAt_fail _ hf'
      · exact keepsAt_fail _ hf'
      · exact htake hf' rfl rfl _
      · exact keepsAt_pure hf' hv
  · split
    · rename_i hsome
      split
      · refine ends_bind_ok rfl ?_
        split
        · unfold followSeeds
          dsimp only
          split
          · exact htake hf rfl hsome _
          · exact keepsAt_pure hf fun _ ↦ hv hsome
        · exact keepsAt_pure hf hv
      · refine ends_bind_ok rfl ?_
        split
        · refine keepsAt_bind ((keeps_draw _).at True (leaves_draw _) hf) fun side f hf hdraw ↦ ?_
          exact htake hf (hdraw.2.state_eq trivial) hsome side
        · exact keepsAt_pure hf hv
    · exact keepsAt_pure hf hv

/-- What a copy has in common with the state it was made from, and what is not touched. -/
structure Spawned (focus : Focus σ) (child : State) (focus' : Focus σ) : Prop where
  id_eq : child.id = focus.executor.nextStateId
  child_eq : child.constraints = focus.state.constraints
  state_eq : focus'.state.constraints = focus.state.constraints
  states_eq : focus'.executor.states = focus.executor.states
  next_eq : focus'.executor.nextStateId = focus.executor.nextStateId + 1

theorem keepsAt_spawn (hf : focus.Sound I) : (spawn : Exec σ State).KeepsAt I focus fun child f ↦
    child.Sound I ∧ Spawned focus child f := by
  obtain ⟨hparent, hchild⟩ := hf.state.branch focus.executor.nextStateId
  refine ends_bind_ok rfl ?_
  dsimp only
  split
  · refine ends_bind_ok rfl (keepsAt_pure ?_ ⟨hchild, rfl, rfl, rfl, rfl, rfl⟩)
    exact ⟨⟨hf.executor.exact, hf.executor.constants, hf.executor.states⟩, hparent⟩
  · refine keepsAt_bind (keepsAt_lift (ProcessTree.safe_split _ _ _ _) hf) ?_
    rintro ⟨⟨left, right⟩, tree⟩ _ hf ⟨rfl, -⟩
    refine ends_bind_ok rfl (keepsAt_pure ?_ ⟨?_, rfl, rfl, rfl, rfl, rfl⟩)
    · exact ⟨⟨hf.executor.exact, hf.executor.constants, hf.executor.states⟩,
        ⟨hparent.valid, hparent.satisfiable, hparent.threads, hparent.memory⟩⟩
    · exact ⟨hchild.valid, hchild.satisfiable, hchild.threads, hchild.memory⟩

theorem keepsAt_recordSide (hf : focus.Sound I) (side internal : Bool) :
    (recordSide side internal).KeepsAt I focus fun _ f ↦
      f.state.constraints = focus.state.constraints := by
  cases internal with
  | true => exact keepsAt_pure hf rfl
  | false =>
    refine ends_updateState (Checked.ends_pure ⟨⟨hf.executor, ?_⟩, fun _ _ ↦ rfl⟩)
    exact ⟨hf.state.valid, hf.state.satisfiable, hf.state.threads, hf.state.memory⟩

theorem keeps_insertState {s : State} (hs : s.Sound I) :
    (insertState s : Exec σ Unit).Keeps I fun _ ↦ True :=
  keeps_modifyExecutor fun _ he ↦ he.insert s.id hs

theorem keepsAt_bothSides {child : State} (internal : Bool) (hf : focus.Sound I) (hchild : child.Sound I)
    (hcond : condition.IsTruth) (hopen : focus.state.constraints.Open I condition)
    (heq : child.constraints = focus.state.constraints) :
    (do
      recordSide true internal
      addConstraint condition
      let (result, child) ← within child do
        recordSide false internal
        addConstraint condition.isZero
      MonadExcept.ofExcept result
      let maxDepth := (← executor).config.maxDepth
      if maxDepth ≠ 0 ∧ maxDepth ≤ (← state).depth then
        terminateEarly "max-depth exceeded"
        insertState child
        let _ ← visit child.id (terminateEarly "max-depth exceeded")
        return (none, none)
      insertState child
      return (some .current, some (.forked child.id)) : Exec σ Sides).KeepsAt I focus fun _ _ ↦ True := by
  obtain ⟨-, htrue⟩ := hopen.side hcond true
  obtain ⟨hzero, hfalse⟩ := hopen.side hcond false
  refine keepsAt_bind (keepsAt_recordSide hf true internal) fun _ f hf hsame ↦ ?_
  refine keepsAt_bind (keepsAt_addConstraint hf hcond (hsame ▸ htrue)) fun _ f hf _ ↦ ?_
  refine keepsAt_bind (Q := fun p _ ↦ p.2.Sound I) (ends_within ?_) fun p f hf hchild ↦ ?_
  · have hother : Focus.Sound I { f with state := child } := ⟨hf.executor, hchild⟩
    refine ends_bind (keepsAt_recordSide hother false internal) (fun _ f' hf' ↦ ?_) fun _ f' hf' ↦ ?_
    · have hsat : I.right → ∃ a, I.Solves a f'.state.constraints ∧ a.val condition.isZero ≠ 0 := by
        rw [hf'.2 _ rfl, heq]
        exact hfalse
      refine Ends.mono (keepsAt_addConstraint hf'.1 hzero hsat) fun r f'' h ↦ ?_
      exact ⟨⟨h.1.executor, hf.state⟩, by rintro _ ⟨⟩; exact h.1.state⟩
    · exact ⟨⟨hf'.1.executor, hf.state⟩, by rintro _ ⟨⟩; exact hf'.1.state⟩
  · refine Keeps.here (R := fun _ ↦ True) (keeps_bind (keeps_ofExcept (R := fun _ ↦ True) fun _ _ ↦ trivial)
      fun _ _ ↦ ?_) hf
    refine keeps_bind keeps_executor fun e _ ↦ keeps_bind keeps_state fun s _ ↦ ?_
    split
    · refine keeps_bind (keeps_terminateEarly _) fun _ _ ↦ keeps_bind (keeps_insertState hchild) fun _ _ ↦ ?_
      exact keeps_bind (keeps_visit _ (keeps_terminateEarly _)) fun _ _ ↦ keeps_pure trivial
    · exact keeps_bind (keeps_insertState hchild) fun _ _ ↦ keeps_pure trivial

theorem keepsAt_split (hf : focus.Sound I) (hcond : condition.IsTruth)
    (hopen : focus.state.constraints.Open I condition) :
    (split condition internal).KeepsAt I focus fun _ _ ↦ True := by
  refine ends_bind_ok rfl ?_
  have hf' : Focus.Sound I { focus with executor := { focus.executor with
      statistics.forks := focus.executor.statistics.forks + 1 } } :=
    ⟨⟨hf.executor.exact, hf.executor.constants, hf.executor.states⟩, hf.state⟩
  refine keepsAt_bind (keepsAt_spawn hf') ?_
  rintro child f hf ⟨hchild, hspawned⟩
  have hboth : ∀ {f' : Focus σ}, f'.Sound I → f.Unmoved True f' → _ := fun {f'} hf' hsame ↦
    keepsAt_bothSides internal hf' hchild hcond
      (by rw [hsame.state_eq trivial, hspawned.state_eq]; exact hopen)
      (by rw [hsame.state_eq trivial, hspawned.state_eq]; exact hspawned.child_eq)
  refine ends_bind_ok rfl (ends_bind_ok rfl ?_)
  dsimp only
  split
  · have hset := fun id seeds {f' : Focus σ} (hf' : f'.Sound I) ↦
      (keeps_setSeeds id seeds).at True (leaves_setSeeds id seeds) hf'
    refine keepsAt_bind ((keeps_dropSeeds _).at True (leaves_dropSeeds _) hf) fun _ f₁ hf₁ h₁ ↦ ?_
    split
    · split
      · exact hboth hf₁ h₁.2
      · exact keepsAt_bind (hset _ _ hf₁) fun _ f₂ hf₂ h₂ ↦ hboth hf₂ (h₁.2.trans h₂.2)
    · refine keepsAt_bind (hset _ _ hf₁) fun _ f₂ hf₂ h₂ ↦ ?_
      split
      · exact hboth hf₂ (h₁.2.trans h₂.2)
      · exact keepsAt_bind (hset _ _ hf₂) fun _ f₃ hf₃ h₃ ↦ hboth hf₃ ((h₁.2.trans h₂.2).trans h₃.2)
  · exact hboth hf (.refl f)

theorem keeps_fork (hcond : condition.IsTruth) (internal : Bool) :
    (fork condition internal : Exec σ Sides).Keeps I fun _ ↦ True := by
  intro focus hf
  refine keepsAt_bind (keepsAt_query (fun hright ↦ Solver.answers_evaluate hf.state.valid
    (hf.state.satisfiable hright) hcond.1) hf) ?_
  rintro v f hf ⟨hstate, htells⟩
  have hopen : v = .sometimes → f.state.constraints.Open I condition := by
    rintro rfl
    exact hstate ▸ Validity.Tells.isOpen htells
  refine keepsAt_bind (keepsAt_restrict hf hcond hopen) fun v' f hf hopen ↦ ?_
  cases v' with
  | always =>
    exact keepsAt_bind (keepsAt_recordSide hf true internal) fun _ f hf _ ↦ keepsAt_pure hf trivial
  | never =>
    exact keepsAt_bind (keepsAt_recordSide hf false internal) fun _ f hf _ ↦ keepsAt_pure hf trivial
  | sometimes => exact keepsAt_split hf hcond (hopen rfl)

theorem keeps_forkOn (branch : Branch) (hcond : condition.IsTruth) (internal : Bool) :
    (forkOn branch condition internal : Exec σ Sides).Keeps I fun _ ↦ True := by
  refine keeps_bind (keeps_onBranch branch (keeps_fork hcond internal)) fun o _ ↦ ?_
  split <;> exact keeps_pure trivial

end Exec

/-! ## Several states at once -/

/-- No place is there twice. -/
abbrev Distinct (arms : List (Option Branch)) : Prop :=
  arms.Pairwise fun x y ↦ ∀ b, x = some b → y ≠ some b

/-- The places are different, and the states there, if they are live, have the constraints `c`. -/
structure Focus.Copies (c : ConstraintSet) (focus : Focus σ) (arms : List (Option Branch)) : Prop where
  constraints_eq : ∀ b, some b ∈ arms → ∀ s, focus.stateAt? b = some s → s.constraints = c
  distinct : Distinct arms

/-- A number of places, all of them different and one of them the current one, with states that have the
constraints `c`. -/
structure Focus.Arms (c : ConstraintSet) (focus : Focus σ) (arms : List Branch) : Prop where
  current : .current ∈ arms
  nodup : arms.Nodup
  lt : ∀ id, .forked id ∈ arms → id < focus.executor.nextStateId
  constraints_eq : ∀ b ∈ arms, ∀ s, focus.stateAt? b = some s → s.constraints = c

theorem Focus.Unmoved.stateAt?_eq {f f' : Focus σ} (h : f.Unmoved True f') (b : Branch) :
    f'.stateAt? b = f.stateAt? b := by
  cases b with
  | current => rw [stateAt?, stateAt?, h.state_eq trivial]
  | forked id => exact h.states_eq id

theorem Focus.Arms.of_unmoved {c : ConstraintSet} {f f' : Focus σ} {arms : List Branch}
    (h : f.Arms c arms) (hf : f.Unmoved True f') : f'.Arms c arms where
  current := h.current
  nodup := h.nodup
  lt id hid := hf.nextStateId_eq ▸ h.lt id hid
  constraints_eq b hb s hs := h.constraints_eq b hb s (hf.stateAt?_eq b ▸ hs)

theorem Focus.Arms.copies {c : ConstraintSet} {f : Focus σ} {arms : List Branch} (h : f.Arms c arms) :
    f.Copies c (arms.map some) where
  constraints_eq b hb := h.constraints_eq b (by simpa using hb)
  distinct := by
    refine List.pairwise_map.2 (h.nodup.imp fun {b b'} hne b'' hb hb' ↦ hne ?_)
    rw [Option.some.inj hb, Option.some.inj hb']

section

variable {c : ConstraintSet} {f f' : Focus σ} {arms outs : List (Option Branch)}

theorem Focus.Copies.of_unmoved (h : f.Copies c arms) (hf : f.Unmoved True f') : f'.Copies c arms :=
  ⟨fun b hb s hs ↦ h.constraints_eq b hb s (hf.stateAt?_eq b ▸ hs), h.distinct⟩

/-- Places of which some are given up. -/
abbrev Thinned (arms outs : List (Option Branch)) : Prop :=
  List.Forall₂ (fun arm out ↦ out = none ∨ out = arm) arms outs

theorem Thinned.mem (h : Thinned arms outs) {b : Branch} (hb : some b ∈ outs) : some b ∈ arms := by
  induction h with
  | nil => exact hb
  | cons hout _ ih =>
    obtain rfl | hb := List.mem_cons.1 hb
    · exact hout.elim nofun fun heq ↦ heq ▸ List.mem_cons_self
    · exact List.mem_cons_of_mem _ (ih hb)

theorem Thinned.distinct (h : Thinned arms outs) (harms : Distinct arms) : Distinct outs := by
  induction h with
  | nil => exact .nil
  | cons hout hrest ih =>
    obtain ⟨hfirst, harms⟩ := List.pairwise_cons.1 harms
    refine List.pairwise_cons.2 ⟨?_, ih harms⟩
    rintro _ hmem b rfl rfl
    exact hfirst _ (Thinned.mem hrest hmem) b (hout.resolve_left nofun).symm rfl

theorem Focus.Copies.thinned (h : f.Copies c arms) (houts : Thinned arms outs) : f.Copies c outs :=
  ⟨fun b hb ↦ h.constraints_eq b (houts.mem hb), houts.distinct h.distinct⟩

theorem Focus.Copies.sublist {arms' : List (Option Branch)} (h : f.Copies c arms)
    (hsub : arms'.Sublist arms) : f.Copies c arms' :=
  ⟨fun b hb ↦ h.constraints_eq b (hsub.subset hb), h.distinct.sublist hsub⟩

end

namespace Exec

variable {c : ConstraintSet} {x : Exec σ α} {focus : Focus σ}

theorem ends_onBranch_sound {b : Branch} (hf : focus.Sound I) (hl : x.Leaves False)
    (hx : ∀ f : Focus σ, f.Sound I → focus.stateAt? b = some f.state →
      x.KeepsAt I f fun _ _ ↦ True) :
    (onBranch b x).Ends I.Bears focus fun _ f ↦
      f.Sound I ∧ ∀ b', b' ≠ b → f.stateAt? b' = focus.stateAt? b' := by
  have hsettling : ∀ f : Focus σ, f.Sound I → focus.stateAt? b = some f.state →
      (settling x).Ends I.Bears f fun _ f' ↦ f'.Sound I ∧ f.Unmoved False f' := by
    intro f hf hb
    refine ((ends_settling (P := fun _ f' ↦ f'.Sound I) (fun _ ↦ hf) fun _ ↦ ?_).and
      (leaves_settling hl f))
    refine Ends.mono (hx f hf hb) fun r f' h ↦ ?_
    cases r with
    | ok a => exact h.1
    | error e =>
      refine (keeps_settle e f' h.1).mono fun r f' h ↦ ?_
      cases r <;> exact h.1
  cases b with
  | current =>
    refine (hsettling focus hf rfl).mono fun _ f h ↦ ⟨h.1, fun b' hb' ↦ ?_⟩
    cases b' with
    | current => exact absurd rfl hb'
    | forked id => exact h.2.states_eq id
  | forked id =>
    refine ends_bind (P := fun _ f ↦ f.Sound I ∧ ∀ b', b' ≠ .forked id →
      f.stateAt? b' = focus.stateAt? b') (ends_visit (fun _ ↦ ⟨hf, fun _ _ ↦ rfl⟩) fun s hs ↦ ?_)
      (fun _ _ h ↦ ends_pure h) fun _ _ h ↦ h
    refine (hsettling ⟨{ focus.executor with states := focus.executor.states.erase id }, s⟩
      ⟨hf.executor.erase id, hf.executor.states id s hs⟩ hs).mono fun _ f h ↦
        ⟨⟨h.1.executor.insert id h.1.state, hf.state⟩, fun b' hb' ↦ ?_⟩
    cases b' with
    | current => rfl
    | forked id' =>
      have hne : ¬compare id id' = .eq := fun heq ↦
        hb' (by rw [Std.LawfulEqOrd.eq_of_compare heq])
      have hstates := h.2.states_eq id'
      dsimp only [Focus.stateAt?] at hstates ⊢
      rw [Std.TreeMap.getElem?_insert, if_neg hne, hstates, Std.TreeMap.getElem?_erase, if_neg hne]

theorem ends_addConstraints {pairs : List (Option Branch × Expr)} (hf : focus.Sound I)
    (hcopies : focus.Copies c (pairs.map (·.1)))
    (hpairs : ∀ p ∈ pairs, p.2.IsTruth ∧ (I.right → ∃ a, I.Solves a c ∧ a.val p.2 ≠ 0)) :
    (forIn pairs PUnit.unit fun (arm, condition) _ ↦ do
      onSide arm (addConstraint condition)
      pure (ForInStep.yield PUnit.unit) : Exec σ PUnit).KeepsAt I focus fun _ _ ↦ True := by
  refine (keepsAt_forIn (J := fun (rest : List (Option Branch × Expr)) _ f ↦
    f.Copies c (rest.map (·.1)) ∧ ∀ p ∈ rest, p.2.IsTruth ∧ (I.right → ∃ a, I.Solves a c ∧ a.val p.2 ≠ 0)) hf
    ⟨hcopies, hpairs⟩ ?_).mono fun _ _ _ ↦ trivial
  rintro ⟨arm, condition⟩ rest _ f hf ⟨hcopies, hpairs⟩
  obtain ⟨hdistinct, hrest⟩ := List.pairwise_cons.1 hcopies.distinct
  rw [List.forall_mem_cons] at hpairs
  refine keepsAt_bind (Q := fun _ f' ↦ f'.Copies c (rest.map (·.1))) ?_
    fun _ f' hf' h ↦ keepsAt_pure hf' ⟨⟨⟩, rfl, h, hpairs.2⟩
  cases arm with
  | none =>
    exact keepsAt_pure hf ⟨fun b hb ↦ hcopies.constraints_eq b (List.mem_cons_of_mem _ hb), hrest⟩
  | some b =>
    have hadd : (onBranch b (addConstraint condition)).KeepsAt I f fun _ f' ↦
        ∀ b', b' ≠ b → f'.stateAt? b' = f.stateAt? b' := by
      refine (ends_onBranch_sound hf (leaves_addConstraint condition) fun f' hf' hb ↦ ?_).mono
        fun _ _ h ↦ ⟨h.1, fun _ _ ↦ h.2⟩
      refine keepsAt_addConstraint hf' hpairs.1.1 ?_
      rw [hcopies.constraints_eq b (by simp) _ hb]
      exact hpairs.1.2
    refine keepsAt_bind hadd fun _ f' hf' h ↦ keepsAt_pure hf' ⟨fun b' hb' s hs ↦ ?_, hrest⟩
    refine hcopies.constraints_eq b' (List.mem_cons_of_mem _ hb') s ?_
    rw [← hs, h b' fun heq ↦ hdistinct _ hb' b rfl (by rw [heq])]

/-- A copy has the constraints `c`, as have the states at the places there were, and the next id. -/
structure Copied (c : ConstraintSet) (arms : List Branch) (focus : Focus σ) (child : State)
    (focus' : Focus σ) : Prop where
  child_eq : child.constraints = c
  id_eq : child.id = focus.executor.nextStateId
  next_eq : focus'.executor.nextStateId = focus.executor.nextStateId + 1
  arms_eq : ∀ b ∈ arms, ∀ s, focus'.stateAt? b = some s → s.constraints = c

section

variable {arms : List Branch} (hf : focus.Sound I)
  (hcopies : ∀ b ∈ arms, ∀ s, focus.stateAt? b = some s → s.constraints = c)
include hf hcopies

theorem keepsAt_spawn_copied (hcurrent : .current ∈ arms) : (spawn : Exec σ State).KeepsAt I focus
    fun child f ↦ child.Sound I ∧ Copied c arms focus child f := by
  have hstate : focus.state.constraints = c := hcopies _ hcurrent _ rfl
  refine (keepsAt_spawn hf).mono ?_
  rintro child f ⟨hchild, hs⟩
  refine ⟨hchild, hs.child_eq.trans hstate, hs.id_eq, hs.next_eq, fun b hb s h ↦ ?_⟩
  cases b with
  | current =>
    obtain rfl := Option.some.inj h
    exact hs.state_eq.trans hstate
  | forked id => exact hcopies _ hb _ (Eq.trans (congrArg (·[id]?) hs.states_eq.symm) h)

theorem keepsAt_visit_spawn {id : StateId} (hid : .forked id ∈ arms) :
    (visit id spawn : Exec σ (Option State)).KeepsAt I focus fun o f ↦
      match o with
      | none => f = focus
      | some child => child.Sound I ∧ Copied c arms focus child f := by
  refine ends_visit (fun _ ↦ ⟨hf, by rintro _ ⟨⟩; rfl⟩) fun s hs ↦ ?_
  have hf' : Focus.Sound I ⟨{ focus.executor with states := focus.executor.states.erase id }, s⟩ :=
    ⟨hf.executor.erase id, hf.executor.states id s hs⟩
  have hstate : s.constraints = c := hcopies _ hid _ hs
  refine Ends.mono (keepsAt_spawn hf') fun r f h ↦
    ⟨⟨h.1.executor.insert id h.1.state, hf.state⟩, fun o ho ↦ ?_⟩
  cases r with
  | error e => cases ho
  | ok child =>
    cases ho
    obtain ⟨hchild, hs⟩ := h.2 child rfl
    refine ⟨hchild, hs.child_eq.trans hstate, hs.id_eq, hs.next_eq, fun b hb s' h' ↦ ?_⟩
    cases b with
    | current => exact hcopies _ hb _ h'
    | forked id' =>
      dsimp only [Focus.stateAt?] at h'
      rw [Std.TreeMap.getElem?_insert] at h'
      split at h'
      · cases h'
        exact hs.state_eq.trans hstate
      · rename_i hne
        rw [hs.states_eq, Std.TreeMap.getElem?_erase, if_neg hne] at h'
        exact hcopies _ hb _ h'

end

theorem keepsAt_insert_copied {arms : List Branch} {child : State} {f : Focus σ}
    (harms : focus.Arms c arms) (hf : f.Sound I) (hchild : child.Sound I)
    (hcopied : Copied c arms focus child f) :
    (do
      insertState child
      pure (.forked child.id) : Exec σ Branch).KeepsAt I f fun b f ↦ f.Arms c (arms ++ [b]) := by
  have hnew : .forked child.id ∉ arms := fun hmem ↦ by
    have := harms.lt _ hmem
    rw [hcopied.id_eq] at this
    exact Nat.lt_irrefl _ this
  refine ends_bind_ok rfl (keepsAt_pure ⟨hf.executor.insert _ hchild, hf.state⟩ ⟨?_, ?_, ?_, ?_⟩)
  · exact List.mem_append_left _ harms.current
  · refine List.nodup_append.2 ⟨harms.nodup, by simp, fun b hb b' hb' ↦ ?_⟩
    obtain rfl := List.mem_singleton.1 hb'
    exact fun heq ↦ hnew (heq ▸ hb)
  · intro id hid
    have hnext : f.executor.nextStateId = focus.executor.nextStateId + 1 := hcopied.next_eq
    obtain hid | hid := List.mem_append.1 hid
    · exact hnext ▸ Nat.lt_succ_of_lt (harms.lt id hid)
    · cases List.mem_singleton.1 hid
      exact hnext ▸ hcopied.id_eq ▸ Nat.lt_succ_self _
  · intro b hb s hs
    obtain hb | hb := List.mem_append.1 hb
    · refine hcopied.arms_eq b hb s (Eq.trans ?_ hs)
      cases b with
      | current => rfl
      | forked id =>
        have hne : ¬compare child.id id = .eq := fun heq ↦
          hnew (Std.LawfulEqOrd.eq_of_compare heq ▸ hb)
        exact (Std.TreeMap.getElem?_insert.trans (if_neg hne)).symm
    · cases List.mem_singleton.1 hb
      have hs : (f.executor.states.insert child.id child)[child.id]? = some s := hs
      rw [Std.TreeMap.getElem?_insert_self] at hs
      exact Option.some.inj hs ▸ hcopied.child_eq

theorem keepsAt_duplicate {arms : List Branch} {b : Branch} (hf : focus.Sound I)
    (harms : focus.Arms c arms) (hb : b ∈ arms) :
    (duplicate b).KeepsAt I focus fun b' f ↦ f.Arms c (arms ++ [b']) := by
  have hown := keepsAt_bind (keepsAt_spawn_copied hf harms.constraints_eq harms.current) fun child f hf h ↦
    keepsAt_insert_copied harms hf h.1 h.2
  unfold duplicate
  dsimp only
  cases b with
  | current => exact hown
  | forked id =>
    refine keepsAt_bind (keepsAt_visit_spawn hf harms.constraints_eq hb) fun o f hf h ↦ ?_
    cases o with
    | some child => exact ends_bind_ok rfl (keepsAt_insert_copied harms hf h.1 h.2)
    | none => exact h ▸ hown

theorem keepsAt_arms (hf : focus.Sound I) (count : Nat) : (arms count).KeepsAt I focus fun l f ↦
    f.Copies focus.state.constraints l := by
  refine ends_bind_ok rfl ?_
  split
  · refine keepsAt_bind ((keeps_draw _).at True (leaves_draw _) hf) fun chosen f hf h ↦ ?_
    have hmem : ∀ {i b}, (if i = chosen then some Branch.current else none) = some b →
        i = chosen ∧ b = .current := by
      intro i b hb
      split at hb
      · exact ⟨‹_›, (Option.some.inj hb).symm⟩
      · cases hb
    refine keepsAt_pure hf ⟨fun b hb s hs ↦ ?_, ?_⟩
    · obtain ⟨i, -, hi⟩ := List.mem_map.1 hb
      obtain ⟨-, rfl⟩ := hmem hi
      exact Option.some.inj hs ▸ congrArg State.constraints (h.2.state_eq trivial)
    · refine List.pairwise_map.2 (List.nodup_range.imp fun {i j} hne b hi hj ↦ hne ?_)
      exact (hmem hi).1.trans (hmem hj).1.symm
  · refine ends_bind_ok rfl ?_
    refine keepsAt_bind (keepsAt_foldlM (J := fun (all : Array Branch) f ↦
      f.Arms focus.state.constraints all.toList) ?_ ?_ ?_) fun all f hf h ↦ keepsAt_pure hf h.copies
    · exact ⟨⟨hf.executor.exact, hf.executor.constants, hf.executor.states⟩, hf.state⟩
    · refine ⟨by simp, by simp, by simp, fun b hb s hs ↦ ?_⟩
      obtain rfl : b = .current := by simpa using hb
      exact Option.some.inj hs ▸ rfl
    · intro all i f hf harms
      refine keepsAt_bind ((keeps_draw _).at True (leaves_draw _) hf) fun parent f₁ hf₁ h₁ ↦ ?_
      refine keepsAt_bind (keepsAt_duplicate hf₁ (harms.of_unmoved h₁.2) ?_) fun b f₂ hf₂ h₂ ↦
        keepsAt_pure hf₂ ?_
      · cases hp : all[parent]? with
        | none => exact harms.current
        | some b => exact Array.mem_def.1 (Array.mem_of_getElem? hp)
      · rwa [Array.toList_push]

theorem draw_discarded (f : Rng → Nat → α × Rng) (n : Nat) (x : Exec σ β) :
    (draw fun r ↦ f r n) >>= (fun _ ↦ x) =
      modifyExecutor (fun e ↦ { e with rng := (f e.rng n).2 }) >>= fun _ ↦ x := rfl

theorem arms_pair (c d : Expr) : (arms [c, d].length : Exec σ (List (Option Branch))) = do
    if ← forkInhibited then
      let chosen ← draw (·.index 2)
      return (List.range 2).map fun i ↦ if i = chosen then some .current else none
    modifyExecutor fun e ↦ { e with statistics.forks := e.statistics.forks + 1 }
    modifyExecutor fun e ↦ { e with rng := (e.rng.index 1).2 }
    return [some .current, some (← duplicate .current)] := by
  have hfirst (k : Nat) : #[Branch.current][k]?.getD .current = .current := by cases k <;> rfl
  have hrange : List.range 1 = [0] := rfl
  rw [← draw_discarded Rng.index 1]
  simp [arms, hrange, hfirst, -List.getElem?_toArray]

/-! ## Seeds of several states -/

theorem keeps_seedArm (arm : Option Branch) (seeds : List Seed) :
    (seedArm arm seeds : Exec σ _).Keeps I fun out ↦ out = none ∨ out = arm := by
  unfold seedArm
  dsimp only
  split
  · exact keeps_pure (.inl rfl)
  · split
    · refine keeps_bind keeps_executor fun _ _ ↦ ?_
      split
      · exact keeps_bind (keeps_onBranch _ (keeps_terminateEarly _)) fun _ _ ↦ keeps_pure (.inl rfl)
      · exact keeps_pure (.inr rfl)
    · split
      · exact keeps_bind keeps_state fun _ _ ↦ keeps_bind (R := fun _ ↦ True) (keeps_pure trivial)
          fun _ _ ↦ keeps_bind (keeps_setSeeds _ _) fun _ _ ↦ keeps_pure (.inr rfl)
      · exact keeps_bind (R := fun _ ↦ True) (keeps_pure trivial) fun _ _ ↦
          keeps_bind (keeps_setSeeds _ _) fun _ _ ↦ keeps_pure (.inr rfl)

theorem leaves_seedArm (arm : Option Branch) (seeds : List Seed) :
    (seedArm arm seeds : Exec σ _).Leaves True := by
  unfold seedArm
  dsimp only
  split
  · exact leaves_pure _
  · split
    · refine leaves_bind leaves_executor fun _ ↦ ?_
      split
      · exact leaves_bind (leaves_onBranch _ (leaves_terminateWith _ _)) fun _ ↦ leaves_pure _
      · exact leaves_pure _
    · split
      · exact leaves_bind leaves_state fun _ ↦ leaves_bind (leaves_pure _) fun _ ↦
          leaves_bind (leaves_setSeeds _ _) fun _ ↦ leaves_pure _
      · exact leaves_bind (leaves_pure _) fun _ ↦ leaves_bind (leaves_setSeeds _ _) fun _ ↦ leaves_pure _

theorem keepsAt_seedArms (hf : focus.Sound I) (conditions : List Expr) {l : List (Option Branch)}
    (h : focus.Copies c l) :
    (seedArms conditions l).KeepsAt I focus fun l' f ↦ f.Copies c l' := by
  refine ends_bind_ok rfl ?_
  split
  · exact keepsAt_pure hf h
  · rename_i seeds _
    have harm (seed : Seed) : (armOf conditions seed : Exec σ Nat).Keeps I fun _ ↦ True := by
      unfold armOf
      split
      · exact keeps_pure trivial
      · exact keeps_draw _
    have harm' (seed : Seed) : (armOf conditions seed : Exec σ Nat).Leaves True := by
      unfold armOf
      split
      · exact leaves_pure _
      · exact leaves_draw _
    refine ends_bind_ok rfl ?_
    refine keepsAt_bind ((keeps_dropSeeds _).at True (leaves_dropSeeds _) hf) fun _ f₁ hf₁ h₁ ↦ ?_
    refine keepsAt_bind ((keeps_mapM (T := fun _ ↦ True) fun seed _ ↦ keeps_bind (harm seed) fun _ _ ↦
        keeps_pure trivial).at True (leaves_mapM fun seed _ ↦ leaves_bind (harm' seed) fun _ ↦
          leaves_pure _) hf₁) fun placed f₂ hf₂ h₂ ↦ ?_
    refine (Keeps.at (keeps_mapM_forall₂ (T := fun (p : Option Branch × Nat) out ↦ out = none ∨ out = p.1)
      fun p _ ↦ keeps_seedArm p.1 _) _ (leaves_mapM fun p _ ↦ leaves_seedArm p.1 _) hf₂).mono
      fun outs f₃ h₃ ↦ ?_
    have hthinned : Thinned (l.zipIdx.map (·.1)) outs := List.forall₂_map_left_iff.2 h₃.1
    rw [List.zipIdx_map_fst] at hthinned
    exact (h.of_unmoved (h₁.2.trans (h₂.2.trans h₃.2))).thinned hthinned

theorem keepsAt_branch {conditions : List Expr} (hf : focus.Sound I) (hconditions : ∀ e ∈ conditions,
    e.IsTruth ∧ (I.right → ∃ a, I.Solves a focus.state.constraints ∧ a.val e ≠ 0)) :
    (branch conditions).KeepsAt I focus fun _ _ ↦ True := by
  unfold branch
  split
  · exact keepsAt_pure hf trivial
  · refine keepsAt_bind (keepsAt_arms hf _) fun l f hf h ↦ ?_
    refine keepsAt_bind (keepsAt_seedArms hf conditions h) fun l f hf h ↦ ?_
    refine keepsAt_bind (ends_addConstraints hf (c := focus.state.constraints) ?_ ?_) fun _ f hf _ ↦
      keepsAt_pure hf trivial
    · refine h.sublist ?_
      rw [List.zip_eq_zip_take_min, List.map_fst_zip (by simp)]
      exact List.take_sublist _ _
    · exact fun p hp ↦ hconditions p.2 (List.of_mem_zip hp).2

theorem keeps_branch_true {conditions : List Expr} (h : ∀ e ∈ conditions, e = .bool true) :
    (branch conditions : Exec σ _).Keeps I fun _ ↦ True := fun focus hf ↦ by
  refine keepsAt_branch hf fun e he ↦ ?_
  rw [h e he]
  refine ⟨⟨Expr.bool_wellFormed true, rfl⟩, fun hright ↦ ?_⟩
  obtain ⟨a, ha⟩ := hf.state.satisfiable hright
  exact ⟨a, ha, by simp [Expr.bool]⟩

end Exec

end Symex
