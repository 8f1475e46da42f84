import Symex.Executor.Outcome
import Symex.Proofs.Questions

namespace Symex

variable {σ α β : Type} {F : Fault → Prop}

namespace Checked

/-- The computation ends with a result as `P` says, or in a fault as `F` says. -/
def Ends (F : Fault → Prop) (x : Checked α) (P : α → Prop) : Prop :=
  match x with
  | .ok a => P a
  | .error fault => F fault

variable {P P' : α → Prop} {Q : β → Prop} {x : Checked α} {a : α}

theorem ends_pure (h : P a) : Ends F (pure a) P := h

theorem ends_of_eq (hx : x = .ok a) (h : P a) : Ends F x P := by
  rw [hx]
  exact h

theorem ends_throw {fault : Fault} (h : F fault) : Ends F (throw fault : Checked α) P := h

theorem ends_bind {f : α → Checked β} (hx : Ends F x P) (hf : ∀ a, P a → Ends F (f a) Q) :
    Ends F (x >>= f) Q := by
  cases x with
  | ok a => exact hf a hx
  | error fault => exact hx

theorem Ends.mono (hx : Ends F x P) (h : ∀ a, P a → P' a) : Ends F x P' := by
  cases x with
  | ok a => exact h a hx
  | error fault => exact hx

theorem Ends.weaken {G : Fault → Prop} (hx : Ends F x P) (h : ∀ fault, F fault → G fault) : Ends G x P := by
  cases x with
  | ok a => exact hx
  | error fault => exact h fault hx

theorem Ends.and {G : Fault → Prop} (hx : Ends F x P) (hx' : Ends G x P') :
    Ends F x fun a ↦ P a ∧ P' a := by
  cases x with
  | ok a => exact ⟨hx, hx'⟩
  | error fault => exact hx

theorem Ends.of_eq (h : Ends F x P) (hx : x = .ok a) : P a := by
  rw [hx] at h
  exact h

theorem Ends.ne_error {fault : Fault} (h : Ends (· ≠ fault) x P) : x ≠ .error fault := by
  rintro rfl
  exact h rfl

theorem ends_true_iff : Ends (fun _ ↦ True) x P ↔ ∀ a, x = .ok a → P a := by
  cases x with
  | ok a =>
    constructor
    · rintro h _ ⟨⟩
      exact h
    · exact fun h ↦ h a rfl
  | error fault => exact ⟨fun _ a h ↦ (nomatch h), fun _ ↦ trivial⟩

theorem ends_demand {p : Prop} [Decidable p] {fault : Fault} {P : Unit → Prop} (hf : ¬p → F fault)
    (h : p → P ()) : Ends F (demand p fault) P := by
  unfold demand
  split
  · exact h ‹_›
  · exact hf ‹_›

theorem ends_ofOption {o : Option α} (hf : F .missing) (h : ∀ a, o = some a → P a) :
    Ends F (ofOption o) P := by
  cases o with
  | some a => exact h a rfl
  | none => exact hf

theorem ends_foldlM {P : β → Prop} {f : β → α → Checked β} {l : List α} {b : β} (hb : P b)
    (hf : ∀ x ∈ l, ∀ b, P b → Ends F (f b x) P) : Ends F (l.foldlM f b) P := by
  induction l generalizing b with
  | nil => exact hb
  | cons x l ih =>
    rw [List.forall_mem_cons] at hf
    rw [List.foldlM_cons]
    exact ends_bind (hf.1 b hb) fun b' hb' ↦ ih hb' hf.2

theorem ends_mapM {f : α → Checked β} {l : List α} (hf : ∀ x ∈ l, Ends F (f x) Q) :
    Ends F (l.mapM f) fun r ↦ ∀ b ∈ r, Q b := by
  induction l with
  | nil => exact ends_pure (by simp)
  | cons x l ih =>
    rw [List.forall_mem_cons] at hf
    rw [List.mapM_cons]
    refine ends_bind hf.1 fun b hb ↦ ends_bind (ih hf.2) fun r hr ↦ ends_pure ?_
    exact List.forall_mem_cons.2 ⟨hb, hr⟩

theorem ends_mapM_array {f : α → Checked β} {l : Array α} (hf : ∀ x ∈ l, Ends F (f x) Q) :
    Ends F (l.mapM f) fun r ↦ ∀ b ∈ r, Q b := by
  rw [Array.mapM_eq_mapM_toList, map_eq_pure_bind]
  refine ends_bind (ends_mapM fun x hx ↦ hf x (Array.mem_def.2 hx)) fun r hr ↦ ends_pure ?_
  simpa using hr

end Checked

def Focus.stateAt? (focus : Focus σ) : Branch → Option State
  | .current => some focus.state
  | .forked id => focus.executor.states[id]?

def Focus.withSolver (focus : Focus σ) (solver : Solver σ) : Focus σ :=
  { focus with executor := { focus.executor with solver } }

namespace Exec

/-- From `focus` the work ends as `Q` says of its result or error and of what becomes of the focus, or in
a fault as `F` says. -/
def Ends (F : Fault → Prop) (x : Exec σ α) (focus : Focus σ)
    (Q : Except PathError α → Focus σ → Prop) : Prop :=
  Checked.Ends F (x.run.run focus) fun p ↦ Q p.1 p.2

variable {x : Exec σ α} {k : α → Exec σ β} {focus : Focus σ}
  {P P' : Except PathError α → Focus σ → Prop} {Q : Except PathError β → Focus σ → Prop} {a : α}

theorem Ends.run (h : x.Ends F focus P) : Checked.Ends F (x.run.run focus) fun p ↦ P p.1 p.2 := h

theorem Ends.with_run (h : x.Ends F focus P) :
    x.Ends F focus fun r f ↦ P r f ∧ x.run.run focus = .ok (r, f) := by
  unfold Ends at h ⊢
  cases hx : x.run.run focus with
  | ok p =>
    rw [hx] at h
    exact ⟨h, rfl⟩
  | error fault =>
    rw [hx] at h
    exact h

/-! ## Composition -/

theorem Ends.mono (hx : x.Ends F focus P) (h : ∀ r f, P r f → P' r f) : x.Ends F focus P' :=
  Checked.Ends.mono hx fun p hp ↦ h p.1 p.2 hp

theorem Ends.weaken {G : Fault → Prop} (hx : x.Ends F focus P) (h : ∀ fault, F fault → G fault) :
    x.Ends G focus P :=
  Checked.Ends.weaken hx h

theorem Ends.and {G : Fault → Prop} (hx : x.Ends F focus P) (hx' : x.Ends G focus P') :
    x.Ends F focus fun r f ↦ P r f ∧ P' r f :=
  Checked.Ends.and hx hx'

theorem ends_forall {ι : Type} [Nonempty ι] {Q : ι → Except PathError α → Focus σ → Prop}
    (h : ∀ i, x.Ends F focus (Q i)) : x.Ends F focus fun r f ↦ ∀ i, Q i r f := by
  unfold Ends Checked.Ends at h ⊢
  split
  · rename_i hx
    exact fun i ↦ by simpa [hx] using h i
  · rename_i hx
    simpa [hx] using h

theorem ends_pure (h : P (.ok a) focus) : (pure a : Exec σ α).Ends F focus P := h

theorem ends_throw {e : PathError} (h : P (.error e) focus) : (throw e : Exec σ α).Ends F focus P := h

theorem ends_bind (hx : x.Ends F focus P) (hok : ∀ a f, P (.ok a) f → (k a).Ends F f Q)
    (herr : ∀ e f, P (.error e) f → Q (.error e) f) : (x >>= k).Ends F focus Q := by
  refine Checked.ends_bind hx ?_
  rintro ⟨r, f⟩ hr
  cases r with
  | ok a => exact hok a f hr
  | error e => exact herr e f hr

theorem ends_seq (hx : x.Ends F focus fun r f ↦
      match r with
      | .ok a => (k a).Ends F f Q
      | .error e => Q (.error e) f) : (x >>= k).Ends F focus Q :=
  ends_bind hx (fun _ _ h ↦ h) fun _ _ h ↦ h

theorem ends_bind_ok {f : Focus σ} (hx : x.run.run focus = .ok (.ok a, f))
    (hk : (k a).Ends F f Q) : (x >>= k).Ends F focus Q := by
  refine ends_bind (P := fun r f' ↦ r = .ok a ∧ f' = f) (Checked.ends_of_eq hx ⟨rfl, rfl⟩)
    (fun a' f' h ↦ ?_) fun e f' h ↦ (nomatch h.1)
  obtain ⟨⟨⟩, rfl⟩ := h
  exact hk

theorem ends_lift {c : Checked α} (h : Checked.Ends F c fun a ↦ P (.ok a) focus) :
    (liftM c : Exec σ α).Ends F focus P := by
  cases c with
  | ok a => exact h
  | error fault => exact h

theorem ends_tryCatch {handler : PathError → Exec σ α} {P' : Except PathError α → Focus σ → Prop}
    (hx : x.Ends F focus P) (hok : ∀ a f, P (.ok a) f → P' (.ok a) f)
    (herr : ∀ e f, P (.error e) f → (handler e).Ends F f P') :
    (tryCatch x handler).Ends F focus P' := by
  refine Checked.ends_bind hx ?_
  rintro ⟨r, f⟩ hr
  cases r with
  | ok a => exact hok a f hr
  | error e => exact herr e f hr

theorem ends_attempt {P : Except PathError (Except PathError α) → Focus σ → Prop}
    (hx : x.Ends F focus fun r f ↦ P (.ok r) f) : (attempt x).Ends F focus P := by
  refine Checked.ends_bind hx ?_
  rintro ⟨r, f⟩ hr
  exact hr

theorem ends_ofExcept {r : Except PathError α} (h : P r focus) :
    (MonadExcept.ofExcept r : Exec σ α).Ends F focus P := by
  cases r with
  | ok a => exact h
  | error e => exact h

/-! ## The focus -/

theorem ends_get {P : Except PathError (Focus σ) → Focus σ → Prop} (h : P (.ok focus) focus) :
    (get : Exec σ (Focus σ)).Ends F focus P := h

theorem ends_set {f : Focus σ} {P : Except PathError PUnit → Focus σ → Prop} (h : P (.ok ⟨⟩) f) :
    (set f : Exec σ PUnit).Ends F focus P := h

theorem ends_executor {P : Except PathError (Executor σ) → Focus σ → Prop}
    (h : P (.ok focus.executor) focus) : (executor : Exec σ _).Ends F focus P := h

theorem ends_state {P : Except PathError State → Focus σ → Prop} (h : P (.ok focus.state) focus) :
    (state : Exec σ _).Ends F focus P := h

theorem ends_modifyExecutor {f : Executor σ → Executor σ} {P : Except PathError Unit → Focus σ → Prop}
    (h : P (.ok ()) { focus with executor := f focus.executor }) :
    (modifyExecutor f).Ends F focus P := h

theorem ends_setState {s : State} {P : Except PathError Unit → Focus σ → Prop}
    (h : P (.ok ()) { focus with state := s }) : (setState s : Exec σ Unit).Ends F focus P := h

theorem run_updateState {f : State → Checked State} {s : State} (h : f focus.state = .ok s) :
    (updateState f : Exec σ Unit).run.run focus = .ok (.ok (), { focus with state := s }) := by
  have hrun : (updateState f : Exec σ Unit).run.run focus =
      (liftM (f focus.state) >>= setState : Exec σ Unit).run.run focus := rfl
  rw [hrun, h]
  rfl

theorem ends_updateState {f : State → Checked State} {P : Except PathError Unit → Focus σ → Prop}
    (h : Checked.Ends F (f focus.state) fun s ↦ P (.ok ()) { focus with state := s }) :
    (updateState f : Exec σ Unit).Ends F focus P := by
  refine ends_bind_ok rfl ?_
  cases hf : f focus.state with
  | ok s =>
    rw [hf] at h
    exact h
  | error fault =>
    rw [hf] at h
    exact h

theorem ends_draw {f : Rng → α × Rng} (h : P (.ok (f focus.executor.rng).1)
      { focus with executor := { focus.executor with rng := (f focus.executor.rng).2 } }) :
    (draw f : Exec σ α).Ends F focus P := h

theorem ends_isTerminated {P : Except PathError Bool → Focus σ → Prop}
    (h : P (.ok (focus.executor.removed.contains focus.state.id)) focus) :
    (isTerminated : Exec σ Bool).Ends F focus P := h

theorem ends_fail {e : ExecError} (h : P (.error ⟨focus.executor.location, e⟩) focus) :
    (fail e : Exec σ α).Ends F focus P := h

/-! ## Questions -/

variable {I : Inputs} {fails : Prop} {question : ConstraintSet → Ask σ α} {R : α → Prop}

theorem ends_ask {P : Except PathError (Except SolverError α) → Focus σ → Prop}
    (hq : (question focus.state.constraints).Answers I fails R)
    (hb : focus.executor.solver.backend.Exact I fails)
    (h : ∀ r solver, focus.executor.solver.Same solver → Answered fails R r →
      P (.ok r) (focus.withSolver solver)) :
    (ask question).Ends F focus P := by
  obtain ⟨r, solver, hrun, hsame, hr⟩ := hq _ hb
  refine ends_bind_ok rfl (ends_bind_ok (a := (r, solver)) (f := focus) ?_ (h r solver hsame hr))
  rw [hrun]
  rfl

theorem ends_query (hq : (question focus.state.constraints).Answers I fails R)
    (hb : focus.executor.solver.backend.Exact I fails)
    (hok : ∀ a solver, focus.executor.solver.Same solver → R a → P (.ok a) (focus.withSolver solver))
    (herr : ∀ solver, focus.executor.solver.Same solver → fails →
      P (.error ⟨focus.executor.location, .queryTimedOut⟩) (focus.withSolver solver)) :
    (query question).Ends F focus P := by
  refine ends_bind (P := fun r f ↦ ∃ answer solver, r = .ok answer ∧ f = focus.withSolver solver ∧
      focus.executor.solver.Same solver ∧ Answered fails R answer)
    (ends_ask hq hb fun r solver hsame hr ↦ ⟨r, solver, rfl, rfl, hsame, hr⟩)
    (fun r f hr ↦ ?_) fun e f he ↦ ?_
  · obtain ⟨answer, solver, hanswer, rfl, hsame, hr⟩ := hr
    obtain rfl := Except.ok.inj hanswer
    cases r with
    | ok a => exact ends_pure (hok a solver hsame hr)
    | error e => exact ends_fail (herr solver hsame hr)
  · obtain ⟨_, _, ⟨⟩, -⟩ := he

/-! ## Other states -/

theorem ends_within {s : State} {P : Except PathError (Except PathError α × State) → Focus σ → Prop}
    (hx : x.Ends F { focus with state := s } fun r f ↦
      P (.ok (r, f.state)) { f with state := focus.state }) :
    (within s x).Ends F focus P := by
  refine ends_bind_ok rfl (ends_bind_ok rfl ?_)
  refine ends_bind (ends_attempt (P := fun r f ↦ ∃ r', r = .ok r' ∧
    P (.ok (r', f.state)) { f with state := focus.state }) (hx.mono fun r f hr ↦ ⟨r, rfl, hr⟩))
    (fun r f hr ↦ ?_) fun e f he ↦ ?_
  · obtain ⟨_, ⟨⟩, hr⟩ := hr
    exact ends_bind_ok rfl (ends_bind_ok rfl (ends_pure hr))
  · obtain ⟨_, ⟨⟩, -⟩ := he

theorem ends_visit {id : StateId} {P : Except PathError (Option α) → Focus σ → Prop}
    (hnone : focus.executor.states[id]? = none → P (.ok none) focus)
    (hsome : ∀ s, focus.executor.states[id]? = some s →
      x.Ends F ⟨{ focus.executor with states := focus.executor.states.erase id }, s⟩ fun r f ↦
        P (r.map some) ⟨{ f.executor with states := f.executor.states.insert id f.state }, focus.state⟩) :
    (visit id x).Ends F focus P := by
  refine ends_bind_ok rfl ?_
  split
  · exact ends_pure (hnone ‹_›)
  · rename_i s hs
    refine ends_bind_ok rfl (ends_bind (ends_within (P := fun r f ↦ ∃ r' f', r = .ok (r', Focus.state f') ∧
        f = { f' with state := focus.state } ∧ P (r'.map some)
          ⟨{ f'.executor with states := f'.executor.states.insert id f'.state }, focus.state⟩)
      ((hsome s hs).mono fun r f hr ↦ ⟨r, f, rfl, rfl, hr⟩)) (fun p f hp ↦ ?_) fun e f he ↦ ?_)
    · obtain ⟨r, f', ⟨⟩, rfl, hr⟩ := hp
      refine ends_bind_ok rfl ?_
      cases r with
      | ok a => exact hr
      | error e => exact hr
    · obtain ⟨_, _, ⟨⟩, -⟩ := he

/-! ## States that end -/

theorem ends_terminate {P : Except PathError Unit → Focus σ → Prop}
    (hlive : focus.state.id ∉ focus.executor.removed)
    (h : P (.ok ()) { focus with executor := { focus.executor with
      removed := focus.executor.removed ++ [focus.state.id] } }) :
    (terminate : Exec σ Unit).Ends F focus P := by
  refine ends_bind_ok rfl ?_
  rw [if_neg (by simpa using hlive)]
  exact ends_bind_ok rfl (ends_modifyExecutor h)

theorem settling_eq (work : Exec σ α) : settling work = (do
    if ← isTerminated then return none
    else tryCatch (some <$> work) fun error ↦ do
      settle error
      return none) := by
  unfold settling
  refine bind_congr fun b ↦ ?_
  split
  · rfl
  · generalize settle (σ := σ) = handler
    funext f
    -- only how the work and the handler end counts
    have hends : ∀ (x : Checked (Except PathError α × Focus σ))
        (y : PathError → Focus σ → Checked (Except PathError Unit × Focus σ)),
        (do
          try
            return some (← (fun _ ↦ x : Exec σ α))
          catch error =>
            (fun f ↦ y error f : Exec σ Unit)
            return none : Exec σ (Option α)) f =
        (tryCatch (some <$> (fun _ ↦ x : Exec σ α)) fun error ↦ do
          (fun f ↦ y error f : Exec σ Unit)
          return none : Exec σ (Option α)) f := by
      intro x y
      obtain fault | ⟨e | a, f'⟩ := x
      · rfl
      · change (y e f' >>= _) >>= _ = y e f' >>= _
        obtain fault | ⟨e' | a, f''⟩ := y e f' <;> rfl
      · rfl
    exact hends (work f) handler

theorem ends_settling {P : Except PathError (Option α) → Focus σ → Prop}
    (hdone : focus.executor.removed.contains focus.state.id = true → P (.ok none) focus)
    (hx : focus.executor.removed.contains focus.state.id = false → x.Ends F focus fun r f ↦
      match r with
      | .ok a => P (.ok (some a)) f
      | .error e => (settle e).Ends F f fun r f ↦
        match r with
        | .ok _ => P (.ok none) f
        | .error e => P (.error e) f) :
    (settling x).Ends F focus P := by
  rw [settling_eq]
  refine ends_bind_ok rfl ?_
  split
  · exact ends_pure (hdone ‹_›)
  · rename_i hlive
    refine ends_tryCatch (P := fun r f ↦
      match r with
      | .ok o => P (.ok o) f
      | .error e => (settle e).Ends F f fun r f ↦
        match r with
        | .ok _ => P (.ok none) f
        | .error e => P (.error e) f) ?_ (fun _ _ h ↦ h) fun e f h ↦ ?_
    · rw [map_eq_pure_bind]
      exact ends_bind (hx (by simpa using hlive)) (fun a f h ↦ ends_pure h) fun _ _ h ↦ h
    · exact ends_bind h (fun _ f h ↦ ends_pure h) fun _ _ h ↦ h

/-- The work gives a result, and `Q` holds of it and of what becomes of the focus. -/
def Returns (x : Exec σ α) (focus : Focus σ) (Q : α → Focus σ → Prop) : Prop :=
  ∃ a focus', x.run.run focus = .ok (.ok a, focus') ∧ Q a focus'

theorem returns_of_ends {x : Exec σ α} {Q : α → Focus σ → Prop}
    (h : x.Ends (fun _ ↦ False) focus fun r f ↦ ∃ a, r = .ok a ∧ Q a f) : x.Returns focus Q := by
  unfold Ends at h
  cases hx : x.run.run focus with
  | error fault =>
    rw [hx] at h
    exact h.elim
  | ok p =>
    obtain ⟨r, f⟩ := p
    rw [hx] at h
    obtain ⟨a, rfl, hQ⟩ := h
    exact ⟨a, f, hx, hQ⟩

end Exec

-- from here on ends are derived by the rules above, and never by running the work
attribute [irreducible] Checked.Ends Exec.Ends

end Symex
