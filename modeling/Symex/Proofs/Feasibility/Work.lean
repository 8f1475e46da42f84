import Mathlib.Data.List.Forall2
import Symex.Proofs.Feasibility.States

namespace Symex

open Checked

variable {σ α β : Type} {I : Trust}

/-! ## Sound machines -/

/-- Answers are right where there are any, if they are taken to be, and all live states are sound. -/
structure Executor.Sound (I : Trust) (e : Executor σ) : Prop where
  exact : I.right → e.solver.backend.Exact I.toInputs True
  constants : ∀ c ∈ e.constants, c.WellFormed
  states : ∀ (id : StateId) (s : State), e.states[id]? = some s → s.Sound I

/-- The machine is sound, and so is the state it works on. -/
structure Focus.Sound (I : Trust) (focus : Focus σ) : Prop where
  executor : focus.executor.Sound I
  state : focus.state.Sound I

namespace Executor

variable {e : Executor σ} {s : State}

theorem Sound.insert (he : e.Sound I) (id : StateId) (hs : s.Sound I) :
    { e with states := e.states.insert id s }.Sound I where
  exact := he.exact
  constants := he.constants
  states id' s' h := by
    rw [Std.TreeMap.getElem?_insert] at h
    split at h
    · exact Option.some.inj h ▸ hs
    · exact he.states id' s' h

theorem Sound.erase (he : e.Sound I) (id : StateId) :
    { e with states := e.states.erase id }.Sound I where
  exact := he.exact
  constants := he.constants
  states id' s' h := by
    rw [Std.TreeMap.getElem?_erase] at h
    split at h
    · cases h
    · exact he.states id' s' h

end Executor

theorem Focus.Sound.withSolver {focus : Focus σ} {solver : Solver σ} (h : focus.Sound I)
    (hsame : I.right → focus.executor.solver.Same solver) : (focus.withSolver solver).Sound I :=
  ⟨⟨fun hright ↦ (hsame hright).backend_eq ▸ h.executor.exact hright, h.executor.constants,
    h.executor.states⟩, h.state⟩

/-! ## Answers that may be wrong -/

/-- Whatever the backend says, `P` holds of the answer. -/
def Ask.Gives (x : Ask σ α) (P : α → Prop) : Prop :=
  ∀ s : Solver σ, Ends (fun _ ↦ True) (x.run.run s) fun p ↦ ∀ a, p.1 = .ok a → P a

namespace Ask

variable {P : α → Prop} {Q : β → Prop} {x : Ask σ α}

theorem gives_pure {a : α} (h : P a) : (pure a : Ask σ α).Gives P := fun _ ↦
  ends_pure (by rintro _ ⟨⟩; exact h)

theorem gives_bind {f : α → Ask σ β} (h : x.Gives P) (hf : ∀ a, P a → (f a).Gives Q) : (x >>= f).Gives Q :=
  fun s ↦ Checked.ends_bind (h s) fun p hp ↦ by
    obtain ⟨r, s⟩ := p
    cases r with
    | ok a => exact hf a (hp a rfl) s
    | error e => exact ends_pure nofun

theorem gives_checked {c : Checked α} (h : Ends (fun _ ↦ True) c P) : (checked c : Ask σ α).Gives P := fun _ ↦
  Checked.ends_bind h fun _ ha ↦ ends_pure (by rintro _ ⟨⟩; exact ha)

end Ask

theorem Solver.gives_value {c : ConstraintSet} {e : Expr} (hc : c.Valid) (he : e.WellFormed) :
    (value c e : Ask σ Expr).Gives fun v ↦ v.WellFormed ∧ v.width = e.width := by
  have hprepare : (prepare c e : Ask σ Expr).Gives fun e' ↦ e'.WellFormed ∧ e'.width = e.width := fun s ↦ by
    have hrun : (prepare c e : Ask σ Expr).run.run s =
        if s.simplifies then c.simplify e >>= fun e' ↦ pure (.ok e', s) else pure (.ok e, s) := rfl
    rw [hrun]
    split
    · obtain ⟨e', he', href⟩ := hc.exists_simplify he
      rw [he']
      exact ends_pure (by rintro _ ⟨⟩; exact ⟨href.wellFormed, href.width_eq⟩)
    · exact ends_pure (by rintro _ ⟨⟩; exact ⟨he, rfl⟩)
  unfold value
  split
  · exact Ask.gives_pure ⟨he, rfl⟩
  · refine Ask.gives_bind hprepare fun e' he' ↦ ?_
    split
    · exact Ask.gives_pure he'
    · refine Ask.gives_bind (P := fun _ ↦ True) (fun _ ↦ ends_pure fun _ _ ↦ trivial) fun v _ ↦ ?_
      refine Ask.gives_checked (ends_true_iff.2 fun v' hv' ↦ ?_)
      have hv' := (Expr.safe_constant v e'.width).of_eq hv'
      exact ⟨hv'.1, hv'.2.trans he'.2⟩

namespace Exec

/-- The work keeps the machine sound, runs into no contradiction unless answers may be wrong, and `R` holds
of its result. -/
def Keeps (I : Trust) (x : Exec σ α) (R : α → Prop) : Prop :=
  ∀ focus, focus.Sound I → x.Ends I.Bears focus fun r f ↦ f.Sound I ∧ ∀ a, r = .ok a → R a

variable {R R' : α → Prop} {T : β → Prop} {x : Exec σ α} {k : α → Exec σ β} {a : α}

theorem keeps_pure (h : R a) : (pure a : Exec σ α).Keeps I R := fun _ hf ↦
  ends_pure ⟨hf, by rintro _ ⟨⟩; exact h⟩

theorem keeps_throw (e : PathError) : (throw e : Exec σ α).Keeps I R := fun _ hf ↦
  ends_throw ⟨hf, nofun⟩

theorem keeps_fail (e : ExecError) : (fail e : Exec σ α).Keeps I R := fun _ hf ↦ ends_fail ⟨hf, nofun⟩

theorem keeps_bind (hx : x.Keeps I R) (hk : ∀ a, R a → (k a).Keeps I T) : (x >>= k).Keeps I T :=
  fun focus hf ↦ ends_bind (hx focus hf) (fun a f h ↦ hk a (h.2 a rfl) f h.1) fun _ _ h ↦ ⟨h.1, nofun⟩

theorem keeps_fail_bind (e : ExecError) : (fail e >>= k).Keeps I T :=
  keeps_bind (keeps_fail e) fun _ (h : False) ↦ h.elim

theorem Keeps.mono (hx : x.Keeps I R) (h : ∀ a, R a → R' a) : x.Keeps I R' := fun focus hf ↦
  (hx focus hf).mono fun _ _ hr ↦ ⟨hr.1, fun a ha ↦ h a (hr.2 a ha)⟩

theorem keeps_bears {c : Checked α} (h : Checked.Ends I.Bears c R) : (liftM c : Exec σ α).Keeps I R :=
  fun _ hf ↦ ends_lift (h.mono fun _ hr ↦ ⟨hf, by rintro _ ⟨⟩; exact hr⟩)

theorem keeps_lift {c : Checked α} (h : Safe c R) : (liftM c : Exec σ α).Keeps I R := keeps_bears h.bears

theorem keeps_tryCatch {handler : PathError → Exec σ α} (hx : x.Keeps I R)
    (hh : ∀ e, (handler e).Keeps I R) : (tryCatch x handler).Keeps I R := fun focus hf ↦
  ends_tryCatch (hx focus hf) (fun _ _ h ↦ h) fun e f h ↦ hh e f h.1

theorem keeps_ofExcept {r : Except PathError α} (h : ∀ a, r = .ok a → R a) :
    (MonadExcept.ofExcept r : Exec σ α).Keeps I R := fun _ hf ↦ ends_ofExcept ⟨hf, h⟩

theorem keeps_forIn {γ : Type} {f : γ → PUnit → Exec σ (ForInStep PUnit)} {l : List γ}
    (hf : ∀ x ∈ l, (f x ⟨⟩).Keeps I (· = .yield ⟨⟩)) :
    (forIn l ⟨⟩ f : Exec σ PUnit).Keeps I fun _ ↦ True := by
  induction l with
  | nil => exact keeps_pure trivial
  | cons x l ih =>
    rw [List.forall_mem_cons] at hf
    rw [List.forIn_cons]
    refine keeps_bind hf.1 ?_
    rintro _ rfl
    exact ih hf.2

theorem keeps_foldlM {γ : Type} {f : β → γ → Exec σ β} {l : List γ} {b : β} (hb : T b)
    (hf : ∀ x ∈ l, ∀ b, T b → (f b x).Keeps I T) : (l.foldlM f b).Keeps I T := by
  induction l generalizing b with
  | nil => exact keeps_pure hb
  | cons x l ih =>
    rw [List.forall_mem_cons] at hf
    rw [List.foldlM_cons]
    exact keeps_bind (hf.1 b hb) fun b' hb' ↦ ih hb' hf.2

theorem keeps_mapM_forall₂ {γ : Type} {f : γ → Exec σ β} {l : List γ} {T : γ → β → Prop}
    (hf : ∀ x ∈ l, (f x).Keeps I (T x)) : (l.mapM f).Keeps I fun r ↦ List.Forall₂ T l r := by
  induction l with
  | nil => exact keeps_pure .nil
  | cons x l ih =>
    rw [List.forall_mem_cons] at hf
    rw [List.mapM_cons]
    exact keeps_bind hf.1 fun b hb ↦ keeps_bind (ih hf.2) fun r hr ↦ keeps_pure (.cons hb hr)

theorem keeps_mapM {γ : Type} {f : γ → Exec σ β} {l : List γ} (hf : ∀ x ∈ l, (f x).Keeps I T) :
    (l.mapM f).Keeps I fun r ↦ ∀ b ∈ r, T b := by
  refine (keeps_mapM_forall₂ (T := fun _ b ↦ T b) hf).mono fun r hr ↦ ?_
  clear hf
  induction hr with
  | nil => simp
  | cons hb _ ih => exact List.forall_mem_cons.2 ⟨hb, ih⟩

/-! ## The focus -/

theorem keeps_executor : (executor : Exec σ _).Keeps I (Executor.Sound I) := fun _ hf ↦
  ends_executor ⟨hf, by rintro _ ⟨⟩; exact hf.executor⟩

theorem keeps_state : (state : Exec σ _).Keeps I (State.Sound I) := fun _ hf ↦
  ends_state ⟨hf, by rintro _ ⟨⟩; exact hf.state⟩

theorem keeps_get : (get : Exec σ _).Keeps I (Focus.Sound I) := fun _ hf ↦
  ends_get ⟨hf, by rintro _ ⟨⟩; exact hf⟩

theorem keeps_set {f : Focus σ} (hf : f.Sound I) : (set f : Exec σ PUnit).Keeps I fun _ ↦ True :=
  fun _ _ ↦ ends_set ⟨hf, fun _ _ ↦ trivial⟩

theorem keeps_modifyExecutor {f : Executor σ → Executor σ}
    (h : ∀ e, e.Sound I → (f e).Sound I) : (modifyExecutor f).Keeps I fun _ ↦ True := fun _ hf ↦
  ends_modifyExecutor ⟨⟨h _ hf.executor, hf.state⟩, fun _ _ ↦ trivial⟩

theorem keeps_setState {s : State} (hs : s.Sound I) : (setState s : Exec σ Unit).Keeps I fun _ ↦ True :=
  fun _ hf ↦ ends_setState ⟨⟨hf.executor, hs⟩, fun _ _ ↦ trivial⟩

theorem keeps_updateState {f : State → Checked State}
    (h : ∀ s, s.Sound I → Safe (f s) (State.Sound I)) :
    (updateState f : Exec σ Unit).Keeps I fun _ ↦ True := fun _ hf ↦
  ends_updateState ((h _ hf.state).bears.mono fun _ hs ↦ ⟨⟨hf.executor, hs⟩, fun _ _ ↦ trivial⟩)

theorem keeps_draw (f : Rng → α × Rng) : (draw f : Exec σ α).Keeps I fun _ ↦ True := fun _ hf ↦
  ends_draw ⟨⟨⟨hf.executor.exact, hf.executor.constants, hf.executor.states⟩, hf.state⟩,
    fun _ _ ↦ trivial⟩

theorem keeps_isTerminated : (isTerminated : Exec σ Bool).Keeps I fun _ ↦ True := fun _ hf ↦
  ends_isTerminated ⟨hf, fun _ _ ↦ trivial⟩

theorem keeps_write (r : Register) {e : Expr} (he : e.WellFormed) :
    (write r e : Exec σ Unit).Keeps I fun _ ↦ True :=
  keeps_updateState fun _ hs ↦ hs.safe_write r he

theorem keeps_writeResult (r : Option Register) {e : Expr} (he : e.WellFormed) :
    (writeResult r e : Exec σ Unit).Keeps I fun _ ↦ True := by
  cases r with
  | none => exact keeps_pure trivial
  | some r => exact keeps_write r he

/-! ## Questions -/

variable {question : ConstraintSet → Ask σ α} {focus : Focus σ} {e : Expr}

theorem ends_ask_any {F : Fault → Prop} {Q : Except PathError (Except SolverError α) → Focus σ → Prop}
    (h : Checked.Ends F ((question focus.state.constraints).run.run focus.executor.solver) fun p ↦
      Q (.ok p.1) (focus.withSolver p.2)) : (ask question).Ends F focus Q :=
  ends_bind_ok rfl (ends_bind (P := fun r f ↦ f = focus ∧ ∃ p, r = .ok p ∧ Q (.ok p.1) (focus.withSolver p.2))
    (ends_lift (h.mono fun p hp ↦ ⟨rfl, p, rfl, hp⟩))
    (fun _ _ hp ↦ by
      obtain ⟨rfl, p, ⟨⟩, hp⟩ := hp
      exact ends_bind_ok rfl (ends_pure hp))
    (fun _ _ hp ↦ by
      obtain ⟨-, p, hp, -⟩ := hp
      cases hp))

theorem ends_ask_sound (hq : I.right → (question focus.state.constraints).Answers I.toInputs True R)
    (hf : focus.Sound I) : (ask question).Ends I.Bears focus fun r f ↦
      f.Sound I ∧ f.state = focus.state ∧ (I.right → ∀ a, r = .ok (.ok a) → R a) := by
  by_cases hright : I.right
  · refine Ends.weaken (F := (· ≠ .infeasible)) (ends_ask (hq hright) (hf.executor.exact hright)
      fun r _ hsame hr ↦ ?_) fun _ hf _ ↦ hf
    exact ⟨hf.withSolver fun _ ↦ hsame, rfl, fun _ a ha ↦ by cases ha; exact hr⟩
  · have hleft {P : Prop} (hr : I.right) : P := absurd hr hright
    exact Ends.weaken (F := fun _ ↦ True) (ends_ask_any (ends_true_iff.2 fun _ _ ↦
      ⟨hf.withSolver hleft, rfl, hleft⟩)) fun _ _ ↦ hleft

theorem keeps_ask (hq : ∀ c : ConstraintSet, c.Valid → I.Satisfiable c →
    (question c).Answers I.toInputs True R) :
    (ask question).Keeps I fun r ↦ I.right → ∀ a, r = .ok a → R a := fun focus hf ↦
  (ends_ask_sound (fun hright ↦ hq _ hf.state.valid (hf.state.satisfiable hright)) hf).mono fun _ _ h ↦
    ⟨h.1, by rintro _ rfl hright a rfl; exact h.2.2 hright a rfl⟩

theorem ends_query_sound (hq : I.right → (question focus.state.constraints).Answers I.toInputs True R)
    (hf : focus.Sound I) : (query question).Ends I.Bears focus fun r f ↦
      f.Sound I ∧ ∀ a, r = .ok a → f.state = focus.state ∧ (I.right → R a) := by
  refine ends_bind (ends_ask_sound hq hf) (fun r f h ↦ ?_) fun _ _ h ↦ ⟨h.1, nofun⟩
  cases r with
  | ok a => exact ends_pure ⟨h.1, by rintro _ ⟨⟩; exact ⟨h.2.1, fun hright ↦ h.2.2 hright a rfl⟩⟩
  | error e => exact ends_fail ⟨h.1, nofun⟩

theorem keeps_query (hq : ∀ c : ConstraintSet, c.Valid → I.Satisfiable c →
    (question c).Answers I.toInputs True R) : (query question).Keeps I fun a ↦ I.right → R a := fun _ hf ↦
  (ends_query_sound (fun hright ↦ hq _ hf.state.valid (hf.state.satisfiable hright)) hf).mono fun _ _ h ↦
    ⟨h.1, fun a ha ↦ (h.2 a ha).2⟩

theorem keeps_query_any (hq : ∀ c : ConstraintSet, c.Valid → I.Satisfiable c →
    (question c).Answers I.toInputs True fun _ ↦ True) : (query question).Keeps I fun _ ↦ True :=
  (keeps_query hq).mono fun _ _ ↦ trivial

theorem keeps_mustBeTrue (he : e.IsTruth) :
    (query (Solver.mustBeTrue · e) : Exec σ Bool).Keeps I fun _ ↦ True :=
  keeps_query_any fun _ hc hsat ↦ (Solver.answers_mustBeTrue hc hsat he.1).mono fun _ _ ↦ trivial

theorem keeps_mayBeTrue (he : e.IsTruth) :
    (query (Solver.mayBeTrue · e) : Exec σ Bool).Keeps I fun _ ↦ True :=
  keeps_query_any fun _ hc hsat ↦ (Solver.answers_mayBeTrue hc hsat he.1).mono fun _ _ ↦ trivial

theorem keeps_ask_value (he : e.WellFormed) : (ask (Solver.value · e) : Exec σ _).Keeps I
    fun r ↦ ∀ v, r = .ok v → v.WellFormed ∧ v.width = e.width := fun _ hf ↦
  ((ends_ask_sound (fun hright ↦ Solver.answers_value hf.state.valid (hf.state.satisfiable hright) he) hf).and
    (ends_ask_any (Q := fun r _ ↦ ∀ v, r = .ok (.ok v) → v.WellFormed ∧ v.width = e.width)
      ((Solver.gives_value hf.state.valid he _).mono fun _ hp v hv ↦ hp v (Except.ok.inj hv)))).mono
    fun _ _ h ↦ ⟨h.1.1, by rintro _ rfl v rfl; exact h.2 v rfl⟩

theorem keeps_value (he : e.WellFormed) : (query (Solver.value · e) : Exec σ Expr).Keeps I
    fun v ↦ v.WellFormed ∧ v.width = e.width := by
  refine keeps_bind (keeps_ask_value he) fun r hr ↦ ?_
  cases r with
  | ok v => exact keeps_pure (hr v rfl)
  | error e => exact keeps_fail _

/-! ## Other states -/

theorem keeps_visit (id : StateId) (hx : x.Keeps I R) :
    (visit id x).Keeps I fun o ↦ ∀ a, o = some a → R a := fun focus hf ↦
  ends_visit (fun _ ↦ ⟨hf, by rintro _ ⟨⟩; nofun⟩) fun s hs ↦
    (hx _ ⟨hf.executor.erase id, hf.executor.states id s hs⟩).mono fun r f h ↦ by
      refine ⟨⟨h.1.executor.insert id h.1.state, hf.state⟩, fun o ho a ha ↦ ?_⟩
      cases r with
      | ok b =>
        obtain rfl := Except.ok.inj ho
        exact h.2 a (by rw [Option.some.inj ha])
      | error e => cases ho

/-! ## Outcomes -/

theorem keeps_modifyReports {f : Executor σ → Executor σ} (hsolver : ∀ e, (f e).solver = e.solver)
    (hconstants : ∀ e, (f e).constants = e.constants) (hstates : ∀ e, (f e).states = e.states) :
    (modifyExecutor f).Keeps I fun _ ↦ True :=
  keeps_modifyExecutor fun e he ↦
    ⟨hsolver e ▸ he.exact, hconstants e ▸ he.constants, hstates e ▸ he.states⟩

theorem keeps_terminate : (terminate : Exec σ Unit).Keeps I fun _ ↦ True := by
  refine keeps_bind keeps_isTerminated fun _ _ ↦ ?_
  split
  · exact keeps_pure trivial
  · exact keeps_bind keeps_state fun _ _ ↦
      keeps_modifyReports (fun _ ↦ rfl) (fun _ ↦ rfl) fun _ ↦ rfl

theorem keeps_solution : (solution : Exec σ Solution).Keeps I fun _ ↦ True := by
  refine keeps_bind keeps_state fun s _ ↦ ?_
  refine keeps_bind (keeps_ask fun c hc hsat ↦ Solver.answers_initialValues hc hsat s.arrays) fun r _ ↦ ?_
  split <;> exact keeps_pure trivial

theorem keeps_emit (termination : Termination) (details : Option String) :
    (emit termination details : Exec σ Unit).Keeps I fun _ ↦ True :=
  keeps_bind keeps_solution fun _ _ ↦ keeps_bind keeps_state fun s _ ↦
    keeps_bind keeps_executor fun e _ ↦ keeps_bind (keeps_lift (s.safe_stackTrace e.program)) fun _ _ ↦
      keeps_modifyReports (fun _ ↦ rfl) (fun _ ↦ rfl) fun _ ↦ rfl

theorem keeps_terminateWith (termination : Termination) (details : Option String) :
    (terminateWith termination details : Exec σ Unit).Keeps I fun _ ↦ True := by
  refine keeps_bind keeps_isTerminated fun _ _ ↦ ?_
  split
  · exact keeps_pure trivial
  · exact keeps_bind (keeps_emit termination details) fun _ _ ↦ keeps_terminate

theorem keeps_terminateEarly (reason : String) :
    (terminateEarly reason : Exec σ Unit).Keeps I fun _ ↦ True := keeps_terminateWith _ _

theorem keeps_terminateOnExit : (terminateOnExit : Exec σ Unit).Keeps I fun _ ↦ True :=
  keeps_terminateWith _ _

theorem keeps_terminateOnError (error : PathError) (details : Option String) :
    (terminateOnError error details : Exec σ Unit).Keeps I fun _ ↦ True := by
  have hend : (do
      emit (.error error.payload.kind error.payload.message) details
      modifyExecutor fun e ↦ { e with errors := e.errors ++ [error] }
      terminate : Exec σ Unit).Keeps I fun _ ↦ True :=
    keeps_bind (keeps_emit _ _) fun _ _ ↦
      keeps_bind (keeps_modifyReports (fun _ ↦ rfl) (fun _ ↦ rfl) fun _ ↦ rfl) fun _ _ ↦ keeps_terminate
  refine keeps_bind keeps_isTerminated fun _ _ ↦ ?_
  split
  · exact keeps_pure trivial
  · refine keeps_bind keeps_executor fun _ _ ↦ ?_
    dsimp only
    split
    · split
      · exact hend
      · exact keeps_terminate
    · exact keeps_bind (keeps_modifyReports (fun _ ↦ rfl) (fun _ ↦ rfl) fun _ ↦ rfl) fun _ _ ↦ hend

theorem keeps_addressInfo {address : Expr} (haddress : address.WellFormed) :
    (addressInfo address : Exec σ String).Keeps I fun _ ↦ True := by
  have hnear (value : Nat) : (addressInfo.neighbours value : Exec σ String).Keeps I fun _ ↦ True :=
    keeps_bind keeps_state fun _ _ ↦ keeps_pure trivial
  unfold addressInfo
  dsimp only
  split
  · exact keeps_bind (hnear _) fun _ _ ↦ keeps_pure trivial
  · refine keeps_bind (keeps_ask (R := fun _ ↦ True) fun c hc hsat ↦
      (Solver.answers_value hc hsat haddress).mono fun _ _ ↦ trivial) fun r _ ↦ ?_
    split
    · exact keeps_pure trivial
    · refine keeps_bind (keeps_ask (R := fun _ ↦ True) fun c hc hsat ↦
        (Solver.answers_range hc hsat haddress).mono fun _ _ ↦ trivial) fun r _ ↦ ?_
      split <;>
        exact keeps_bind (R := fun _ ↦ True) (keeps_pure trivial) fun _ _ ↦
          keeps_bind (hnear _) fun _ _ ↦ keeps_pure trivial

theorem keeps_settle (error : PathError) : (settle error : Exec σ Unit).Keeps I fun _ ↦ True := by
  unfold settle
  split
  · exact keeps_throw error
  · split
    · exact keeps_terminateEarly _
    · exact keeps_terminateOnError _ _

theorem keeps_settling (hx : x.Keeps I R) : (settling x).Keeps I fun o ↦ ∀ a, o = some a → R a :=
  fun focus hf ↦ ends_settling (fun _ ↦ ⟨hf, by rintro _ ⟨⟩; nofun⟩) fun _ ↦
    (hx focus hf).mono fun r f h ↦ by
      cases r with
      | ok a => exact ⟨h.1, by rintro _ ⟨⟩ a ⟨⟩; exact h.2 a rfl⟩
      | error e =>
        refine (keeps_settle e f h.1).mono fun r f h ↦ ?_
        cases r with
        | ok _ => exact ⟨h.1, by rintro _ ⟨⟩; nofun⟩
        | error e => exact ⟨h.1, nofun⟩

theorem keeps_onBranch (branch : Branch) (hx : x.Keeps I R) :
    (onBranch branch x).Keeps I fun o ↦ ∀ a, o = some a → R a := by
  cases branch with
  | current => exact keeps_settling hx
  | forked id =>
    refine keeps_bind (keeps_visit id (keeps_settling hx)) fun o ho ↦ keeps_pure fun a ha ↦ ?_
    exact ho (some a) (Option.join_eq_some_iff.1 ha) a rfl

theorem keeps_onSide (branch : Option Branch) {x : Exec σ Unit} (hx : x.Keeps I fun _ ↦ True) :
    (onSide branch x).Keeps I fun _ ↦ True := by
  cases branch with
  | none => exact keeps_pure trivial
  | some branch => exact keeps_bind (keeps_onBranch branch hx) fun _ _ ↦ keeps_pure trivial

end Exec

/-! ## What work leaves alone -/

/-- The live states are those there were, and if `own` holds so is the state that is worked on. -/
structure Focus.Unmoved (own : Prop) (focus focus' : Focus σ) : Prop where
  state_eq : own → focus'.state = focus.state
  states_eq : ∀ id : StateId, focus'.executor.states[id]? = focus.executor.states[id]?
  nextStateId_eq : focus'.executor.nextStateId = focus.executor.nextStateId

namespace Focus.Unmoved

variable {own : Prop} {f f' f'' : Focus σ}

theorem refl (f : Focus σ) : f.Unmoved own f := ⟨fun _ ↦ rfl, fun _ ↦ rfl, rfl⟩

theorem trans (h : f.Unmoved own f') (h' : f'.Unmoved own f'') : f.Unmoved own f'' where
  state_eq ho := (h'.state_eq ho).trans (h.state_eq ho)
  states_eq id := (h'.states_eq id).trans (h.states_eq id)
  nextStateId_eq := h'.nextStateId_eq.trans h.nextStateId_eq

end Focus.Unmoved

namespace Exec

/-- However it ends, the work leaves the other states alone, and its own one too if `own` holds. -/
def Leaves (own : Prop) (x : Exec σ α) : Prop :=
  ∀ focus, x.Ends (fun _ ↦ True) focus fun _ f ↦ focus.Unmoved own f

variable {own : Prop} {x : Exec σ α} {k : α → Exec σ β}

theorem leaves_pure (a : α) : (pure a : Exec σ α).Leaves own := fun _ ↦ ends_pure (.refl _)

theorem leaves_throw (e : PathError) : (throw e : Exec σ α).Leaves own := fun _ ↦ ends_throw (.refl _)

theorem leaves_fail (e : ExecError) : (fail e : Exec σ α).Leaves own := fun _ ↦ ends_fail (.refl _)

theorem leaves_bind (hx : x.Leaves own) (hk : ∀ a, (k a).Leaves own) : (x >>= k).Leaves own :=
  fun focus ↦ ends_bind (hx focus) (fun a f h ↦ (hk a f).mono fun _ _ h' ↦ h.trans h') fun _ _ h ↦ h

theorem leaves_lift (c : Checked α) : (liftM c : Exec σ α).Leaves own := fun _ ↦
  ends_lift (ends_true_iff.2 fun _ _ ↦ .refl _)

theorem leaves_executor : (executor : Exec σ _).Leaves own := fun _ ↦ ends_executor (.refl _)

theorem leaves_state : (state : Exec σ _).Leaves own := fun _ ↦ ends_state (.refl _)

theorem leaves_isTerminated : (isTerminated : Exec σ Bool).Leaves own := fun _ ↦
  ends_isTerminated (.refl _)

theorem leaves_modifyExecutor {f : Executor σ → Executor σ} (hstates : ∀ e, (f e).states = e.states)
    (hnext : ∀ e, (f e).nextStateId = e.nextStateId) : (modifyExecutor f).Leaves own := fun focus ↦
  ends_modifyExecutor ⟨fun _ ↦ rfl, fun id ↦ by rw [hstates], hnext _⟩

theorem leaves_updateState (f : State → Checked State) : (updateState f : Exec σ Unit).Leaves False :=
  fun _ ↦ ends_updateState (ends_true_iff.2 fun _ _ ↦ ⟨nofun, fun _ ↦ rfl, rfl⟩)

theorem leaves_draw (f : Rng → α × Rng) : (draw f : Exec σ α).Leaves own := fun _ ↦
  ends_draw ⟨fun _ ↦ rfl, fun _ ↦ rfl, rfl⟩

theorem leaves_ask (question : ConstraintSet → Ask σ α) : (ask question).Leaves own := fun focus ↦
  ends_bind_ok rfl (ends_bind (leaves_lift _ focus) (fun _ _ _ ↦
    ends_bind (P := fun _ f ↦ focus.Unmoved own f) (ends_set ⟨fun _ ↦ rfl, fun _ ↦ rfl, rfl⟩)
      (fun _ _ h ↦ ends_pure h) fun _ _ h ↦ h) fun _ _ h ↦ h)

theorem leaves_query (question : ConstraintSet → Ask σ α) : (query question).Leaves own := by
  refine leaves_bind (leaves_ask question) fun r ↦ ?_
  split
  · exact leaves_pure _
  · exact leaves_fail _

theorem leaves_mapM {γ : Type} {f : γ → Exec σ β} {l : List γ} (hf : ∀ x ∈ l, (f x).Leaves own) :
    (l.mapM f).Leaves own := by
  induction l with
  | nil => exact leaves_pure _
  | cons x l ih =>
    rw [List.forall_mem_cons] at hf
    rw [List.mapM_cons]
    exact leaves_bind hf.1 fun _ ↦ leaves_bind (ih hf.2) fun _ ↦ leaves_pure _

theorem leaves_visit (id : StateId) (hx : x.Leaves True) : (visit id x).Leaves own := by
  intro focus
  refine ends_visit (fun _ ↦ .refl _) fun s hs ↦ (hx _).mono fun r f h ↦ ⟨fun _ ↦ rfl, fun id' ↦ ?_,
    h.nextStateId_eq⟩
  dsimp only
  rw [Std.TreeMap.getElem?_insert, h.states_eq, h.state_eq trivial]
  split
  · rename_i heq
    rw [← Std.LawfulEqOrd.eq_of_compare heq, hs]
  · rename_i hne
    dsimp only
    rw [Std.TreeMap.getElem?_erase, if_neg hne]

theorem leaves_terminate : (terminate : Exec σ Unit).Leaves own := by
  refine leaves_bind leaves_isTerminated fun _ ↦ ?_
  split
  · exact leaves_pure _
  · exact leaves_bind leaves_state fun _ ↦ leaves_modifyExecutor (fun _ ↦ rfl) fun _ ↦ rfl

theorem leaves_emit (termination : Termination) (details : Option String) :
    (emit termination details : Exec σ Unit).Leaves own := by
  have hsolution : (solution : Exec σ Solution).Leaves own := by
    refine leaves_bind leaves_state fun _ ↦ leaves_bind (leaves_ask _) fun _ ↦ ?_
    split <;> exact leaves_pure _
  exact leaves_bind hsolution fun _ ↦ leaves_bind leaves_state fun _ ↦ leaves_bind leaves_executor fun _ ↦
    leaves_bind (leaves_lift _) fun _ ↦ leaves_modifyExecutor (fun _ ↦ rfl) fun _ ↦ rfl

theorem leaves_terminateWith (termination : Termination) (details : Option String) :
    (terminateWith termination details : Exec σ Unit).Leaves own := by
  refine leaves_bind leaves_isTerminated fun _ ↦ ?_
  split
  · exact leaves_pure _
  · exact leaves_bind (leaves_emit termination details) fun _ ↦ leaves_terminate

theorem leaves_settle (error : PathError) : (settle error : Exec σ Unit).Leaves own := by
  have hend (termination : Termination) (details : Option String) : (do
      emit termination details
      modifyExecutor fun e ↦ { e with errors := e.errors ++ [error] }
      terminate : Exec σ Unit).Leaves own :=
    leaves_bind (leaves_emit _ _) fun _ ↦
      leaves_bind (leaves_modifyExecutor (fun _ ↦ rfl) fun _ ↦ rfl) fun _ ↦ leaves_terminate
  unfold settle
  split
  · exact leaves_throw error
  · split
    · exact leaves_terminateWith _ _
    · refine leaves_bind leaves_isTerminated fun _ ↦ ?_
      split
      · exact leaves_pure _
      · refine leaves_bind leaves_executor fun _ ↦ ?_
        dsimp only
        split
        · split
          · exact hend _ _
          · exact leaves_terminate
        · exact leaves_bind (leaves_modifyExecutor (fun _ ↦ rfl) fun _ ↦ rfl) fun _ ↦ hend _ _

theorem leaves_settling (hx : x.Leaves own) : (settling x).Leaves own := fun focus ↦
  ends_settling (fun _ ↦ .refl _) fun _ ↦ (hx focus).mono fun r f h ↦ by
    cases r with
    | ok a => exact h
    | error e =>
      have hsettle : (settle e : Exec σ Unit).Leaves own := leaves_settle e
      refine (hsettle f).mono fun r f' h' ↦ ?_
      cases r with
      | ok _ => exact h.trans h'
      | error _ => exact h.trans h'

theorem leaves_onBranch (branch : Branch) (hx : x.Leaves True) : (onBranch branch x).Leaves True := by
  cases branch with
  | current => exact leaves_settling hx
  | forked id => exact leaves_bind (leaves_visit id (leaves_settling hx)) fun _ ↦ leaves_pure _

end Exec

end Symex
