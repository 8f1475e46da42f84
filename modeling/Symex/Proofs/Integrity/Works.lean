import Symex.Proofs.Integrity.Stands
import Symex.Proofs.Lineage.Branches

namespace Symex

open Checked

variable {σ α β : Type} {o : Origin} {fatal fatal' : Prop} {sh sh' : Shape} {todo todo' : List Branch}
  {f g h : Focus σ}

namespace Focus

theorem Still.of_executor {e : Executor σ} (hstates : e.states = g.executor.states)
    (hnext : e.nextStateId = g.executor.nextStateId) (hprogram : e.program = g.executor.program)
    (hlocation : e.location = g.executor.location) (hconstants : e.constants = g.executor.constants)
    (hconfig : e.config = g.executor.config) (hallocator : e.allocator = g.executor.allocator)
    (hremoved : e.removed = g.executor.removed) : g.Still ⟨e, g.state⟩ := by
  have hbound : bound ⟨e, g.state⟩ = g.bound := congrArg Allocator.nextId hallocator
  exact ⟨⟨⟨hstates, hnext, hprogram, hlocation, hconstants, hconfig, Nat.le_of_eq hbound.symm, rfl,
    fun id hid ↦ hremoved ▸ hid, fun id hid ↦ .inl (hremoved ▸ hid)⟩, rfl⟩, hremoved⟩

theorem Alone.of_state {s : State} (hid : s.id = g.state.id) : g.Alone ⟨g.executor, s⟩ :=
  ⟨rfl, rfl, rfl, rfl, rfl, rfl, Nat.le_refl _, hid, fun _ ↦ id, fun _ ↦ .inl⟩

theorem Still.of_state {s : State} (hid : s.id = g.state.id) (hshape : s.shape = g.state.shape) :
    g.Still ⟨g.executor, s⟩ :=
  ⟨⟨.of_state hid, hshape⟩, rfl⟩

end Focus

namespace Exec

/-- Nothing that the work looks up is missing, and it ends as `Q` says. -/
abbrev Found (x : Exec σ α) (g : Focus σ) (Q : Except PathError α → Focus σ → Prop) : Prop :=
  x.Ends Fault.Ordinary g Q

theorem ends_lift_bind {F : Fault → Prop} {c : Checked α} {k : α → Exec σ β}
    {Q : Except PathError β → Focus σ → Prop} (h : Checked.Ends F c fun a ↦ (k a).Ends F g Q) :
    (liftM c >>= k : Exec σ β).Ends F g Q := by
  refine ends_bind (P := fun r h ↦ ∃ a, r = .ok a ∧ h = g ∧ (k a).Ends F g Q)
    (ends_lift (h.mono fun a ha ↦ ⟨a, rfl, rfl, ha⟩)) ?_ ?_
  · rintro _ _ ⟨_, ⟨⟩, rfl, hk⟩
    exact hk
  · rintro _ _ ⟨_, ⟨⟩, -⟩

theorem ends_updateState_bind {F : Fault → Prop} {u : State → Checked State} {k : Unit → Exec σ β}
    {Q : Except PathError β → Focus σ → Prop}
    (h : Checked.Ends F (u g.state) fun s ↦ (k ()).Ends F { g with state := s } Q) :
    (updateState u >>= k).Ends F g Q := by
  refine ends_bind (P := fun r h ↦ r = .ok () ∧ (k ()).Ends F h Q)
    (ends_updateState (h.mono fun s hs ↦ ⟨rfl, hs⟩)) (fun _ _ hk ↦ hk.2) ?_
  rintro _ _ ⟨⟨⟩, -⟩

/-! ## Work that moves nothing -/

/-- The work moves nothing, and gives a result as `R` says unless it fails. -/
def Still (x : Exec σ α) (R : α → Prop) : Prop :=
  ∀ g, x.Found g fun r h ↦ g.Still h ∧ (∀ a, r = .ok a → R a) ∧ ∀ e, r = .error e → e.payload.isFatal = false

variable {x : Exec σ α} {k : α → Exec σ β} {R R' : α → Prop} {T : β → Prop} {a : α}

theorem still_pure (h : R a) : (pure a : Exec σ α).Still R := fun g ↦
  ends_pure ⟨.refl g, by rintro _ ⟨⟩; exact h, nofun⟩

theorem still_fail {e : ExecError} (he : e.isFatal = false) : (fail e : Exec σ α).Still R := fun g ↦
  ends_fail ⟨.refl g, nofun, by rintro _ ⟨⟩; exact he⟩

theorem still_bind (hx : x.Still R) (hk : ∀ a, R a → (k a).Still T) : (x >>= k).Still T := fun g ↦
  ends_bind (hx g) (fun a h hh ↦ (hk a (hh.2.1 a rfl) h).mono fun _ _ hr ↦ ⟨hh.1.trans hr.1, hr.2⟩)
    fun e _ hh ↦ ⟨hh.1, nofun, fun _ he' ↦ Except.error.inj he' ▸ hh.2.2 e rfl⟩

theorem Still.mono (hx : x.Still R) (h : ∀ a, R a → R' a) : x.Still R' := fun g ↦
  (hx g).mono fun _ _ hr ↦ ⟨hr.1, fun a ha ↦ h a (hr.2.1 a ha), hr.2.2⟩

theorem still_lift {c : Checked α} (h : Checked.Found c R) : (liftM c : Exec σ α).Still R := fun g ↦
  ends_lift (h.ordinary.mono fun _ ha ↦ ⟨.refl g, by rintro _ ⟨⟩; exact ha, nofun⟩)

theorem still_ofExcept {r : Except PathError α} (h : ∀ a, r = .ok a → R a)
    (he : ∀ e, r = .error e → e.payload.isFatal = false) : (MonadExcept.ofExcept r : Exec σ α).Still R :=
  fun g ↦ ends_ofExcept ⟨.refl g, h, he⟩

theorem still_state : (state : Exec σ State).Still fun _ ↦ True := fun g ↦
  ends_state ⟨.refl g, fun _ _ ↦ trivial, nofun⟩

theorem still_executor : (executor : Exec σ (Executor σ)).Still fun _ ↦ True := fun g ↦
  ends_executor ⟨.refl g, fun _ _ ↦ trivial, nofun⟩

theorem still_modifyExecutor {u : Executor σ → Executor σ}
    (h : ∀ g : Focus σ, g.Still ⟨u g.executor, g.state⟩) : (modifyExecutor u).Still fun _ ↦ True := fun g ↦
  ends_modifyExecutor ⟨h g, fun _ _ ↦ trivial, nofun⟩

theorem still_updateState {u : State → Checked State}
    (h : ∀ s, Checked.Found (u s) fun s' ↦ s'.id = s.id ∧ s'.shape = s.shape) :
    (updateState u : Exec σ Unit).Still fun _ ↦ True := fun g ↦
  ends_updateState ((h g.state).ordinary.mono fun _ hs ↦ ⟨.of_state hs.1 hs.2, fun _ _ ↦ trivial, nofun⟩)

theorem still_draw {d : Rng → α × Rng} (h : ∀ rng, R (d rng).1) : (draw d : Exec σ α).Still R := fun g ↦
  ends_draw ⟨.of_executor rfl rfl rfl rfl rfl rfl rfl rfl, by rintro _ ⟨⟩; exact h _, nofun⟩

theorem still_ask {question : ConstraintSet → Ask σ α} (hq : ∀ c, (question c).Looks R) :
    (ask question).Still fun r ↦ ∀ a, r = .ok a → R a := by
  intro g
  refine ends_bind_ok rfl (ends_lift_bind ((hq g.state.constraints g.executor.solver).ordinary.mono fun p hp ↦ ?_))
  refine ends_bind_ok rfl (ends_pure ⟨.of_executor rfl rfl rfl rfl rfl rfl rfl rfl, ?_, nofun⟩)
  rintro _ ⟨⟩
  exact hp

theorem still_query {question : ConstraintSet → Ask σ α} (hq : ∀ c, (question c).Looks R) :
    (query question).Still R := by
  refine still_bind (still_ask hq) fun r hr ↦ ?_
  split
  · exact still_pure (hr _ rfl)
  · exact still_fail rfl

theorem still_mapM {γ : Type} {w : γ → Exec σ β} {l : List γ} (hw : ∀ x ∈ l, (w x).Still fun _ ↦ True) :
    (l.mapM w).Still fun _ ↦ True := by
  induction l with
  | nil => exact still_pure trivial
  | cons x l ih =>
    rw [List.forall_mem_cons] at hw
    rw [List.mapM_cons]
    exact still_bind hw.1 fun _ _ ↦ still_bind (ih hw.2) fun _ _ ↦ still_pure trivial

theorem still_foldlM {γ : Type} {w : β → γ → Exec σ β} {l : List γ} {b : β} (hb : T b)
    (hw : ∀ x ∈ l, ∀ b, T b → (w b x).Still T) : (l.foldlM w b).Still T := by
  induction l generalizing b with
  | nil => exact still_pure hb
  | cons x l ih =>
    rw [List.forall_mem_cons] at hw
    rw [List.foldlM_cons]
    exact still_bind (hw.1 b hb) fun b' hb' ↦ ih hb' hw.2

/-! ## Work at one place after another -/

/-- How work on the state of `f` ends: with a result and what is left to do then, as `Q` says, or in an error,
which ends the run only if `fatal` holds. -/
abbrev Ending (o : Origin) (fatal : Prop) (sh : Shape) (Q : α → List Branch → Prop) (f : Focus σ)
    (r : Except PathError α) (h : Focus σ) : Prop :=
  match r with
  | .ok a => ∃ left, Q a left ∧ Stand o sh left f h
  | .error e => Fails o fatal e f h

/-- Where `todo` is left to do the work ends as it should. -/
def Works (o : Origin) (fatal : Prop) (sh : Shape) (todo : List Branch) (x : Exec σ α)
    (Q : α → List Branch → Prop) : Prop :=
  ∀ f g, Stand o sh todo f g → x.Found g (Ending o fatal sh Q f)

/-- Nothing is left to do after the work. -/
abbrev Finishes (o : Origin) (fatal : Prop) (sh : Shape) (todo : List Branch) (x : Exec σ α) : Prop :=
  x.Works o fatal sh todo fun _ left ↦ left = []

variable {Q Q' : α → List Branch → Prop} {P : β → List Branch → Prop}

theorem works_pure (h : Q a todo) : (pure a : Exec σ α).Works o fatal sh todo Q := fun _ _ hg ↦
  ends_pure ⟨todo, h, hg⟩

theorem works_bind (hx : x.Works o fatal sh todo Q)
    (hk : ∀ a left, Q a left → (k a).Works o fatal sh left P) : (x >>= k).Works o fatal sh todo P :=
  fun f g hg ↦ ends_bind (hx f g hg) (fun a h ⟨left, hleft, hh⟩ ↦ hk a left hleft f h hh) fun _ _ he ↦ he

theorem Works.mono (hx : x.Works o fatal sh todo Q) (hfatal : fatal → fatal')
    (h : ∀ a left, Q a left → Q' a left) : x.Works o fatal' sh todo Q' := fun f g hg ↦
  (hx f g hg).mono fun r _ hr ↦ by
    cases r with
    | ok a =>
      obtain ⟨left, hleft, hh⟩ := hr
      exact ⟨left, h a left hleft, hh⟩
    | error e => exact ⟨hr.reaches, fun he ↦ hfatal (hr.fatal he)⟩

theorem Works.perm (hx : x.Works o fatal sh todo Q) (hperm : todo.Perm todo') :
    x.Works o fatal sh todo' Q := fun f g hg ↦ hx f g (hg.perm hperm)

theorem works_drop (hsh : sh.Controlled o.program) (hsub : todo'.Sublist todo)
    (hx : x.Works o fatal sh todo' Q) : x.Works o fatal sh todo Q := fun f g hg ↦
  hx f g (hg.drop hsh hsub)

theorem Works.finishes (hx : x.Works o fatal sh todo Q) (hsh : sh.Controlled o.program) :
    x.Finishes o fatal sh todo := fun f g hg ↦
  (hx f g hg).mono fun r _ hr ↦ by
    cases r with
    | ok a =>
      obtain ⟨left, -, hh⟩ := hr
      exact ⟨[], rfl, hh.drop hsh (List.nil_sublist _)⟩
    | error e => exact hr

theorem works_lift {c : Checked α} (h : Checked.Found c R) :
    (liftM c : Exec σ α).Works o fatal sh todo fun a left ↦ R a ∧ left = todo := fun _ _ hg ↦
  ends_lift (h.ordinary.mono fun _ ha ↦ ⟨todo, ⟨ha, rfl⟩, hg⟩)

theorem works_executor : (executor : Exec σ (Executor σ)).Works o fatal sh todo fun e left ↦
    e.program = o.program ∧ e.location = o.location ∧ left = todo := fun _ _ hg ↦
  ends_executor ⟨todo, ⟨hg.reaches.program_eq, hg.reaches.location_eq, rfl⟩, hg⟩

theorem works_state : (state : Exec σ State).Works o fatal sh [.current] fun s left ↦
    s.shape = sh ∧ (∃ n, sh.Kept o.program n) ∧ left = [.current] := fun _ _ hg ↦
  ends_state ⟨[.current], ⟨(hg.own_eq (by simp)).1, ⟨_, (hg.own_eq (by simp)).2.1⟩, rfl⟩, hg⟩

theorem Still.works (hx : x.Still R) :
    x.Works o fatal sh [.current] fun a left ↦ R a ∧ left = [.current] := fun f g hg ↦
  (hx g).mono fun r h hr ↦ by
    cases r with
    | ok a => exact ⟨_, ⟨hr.2.1 a rfl, rfl⟩, hg.rests hr.1.toRests⟩
    | error e =>
      obtain ⟨hshape, -, htrace⟩ := hg.own_eq (by simp)
      refine hg.fails hr.1.toAlone ?_ fun he ↦ nomatch he.symm.trans (hr.2.2 e rfl)
      rw [hr.1.shape_eq, hshape]
      exact htrace

theorem Still.works_of_total (hx : x.Still R) (ht : x.Total) :
    x.Works o fatal sh todo fun a left ↦ R a ∧ left = todo := fun f g hg ↦ by
  refine ((hx g).and (ht g)).mono ?_
  rintro _ h ⟨hr, a, rfl, -⟩
  exact ⟨todo, ⟨hr.2.1 a rfl, rfl⟩, hg.rests hr.1.toRests⟩

theorem works_fail {e : ExecError} (he : e.isFatal = false) :
    (fail e : Exec σ α).Works o fatal sh [.current] Q :=
  (still_fail (R := fun _ ↦ False) he).works.mono id fun _ _ h ↦ h.1.elim

theorem works_fail_bind {e : ExecError} (he : e.isFatal = false) :
    (fail e >>= k : Exec σ β).Works o fatal sh [.current] P :=
  works_bind (works_fail (Q := fun _ _ ↦ False) he) fun _ _ h ↦ h.elim

theorem Finishes.found (hx : x.Finishes o fatal sh' [.current]) (hg : Stand o sh' [.current] f g) :
    x.Found g (Ending o fatal sh (fun _ left ↦ left = []) f) :=
  (hx f g hg).mono fun r _ hr ↦ by
    cases r with
    | ok a =>
      obtain ⟨_, rfl, hh⟩ := hr
      exact ⟨[], rfl, hh.done sh⟩
    | error e => exact hr

theorem finishes_updateState_bind {u : State → Checked State} {k : Unit → Exec σ β} {S : Shape → Prop}
    (hu : ∀ s n, s.shape = sh → sh.Kept o.program n → Checked.Found (u s) fun s' ↦
      s'.id = s.id ∧ s'.shape.Traceable o.program ∧ s'.shape.Kept o.program n ∧ S s'.shape)
    (hk : ∀ sh', S sh' → (k ()).Finishes o fatal sh' [.current]) :
    (updateState u >>= k).Finishes o fatal sh [.current] := fun f g hg ↦ by
  obtain ⟨hshape, hkept, -⟩ := hg.own_eq (by simp)
  refine ends_updateState_bind ((hu g.state g.bound hshape hkept).ordinary.mono ?_)
  rintro s ⟨hid, htrace, hkept', hS⟩
  exact (hk _ hS).found (hg.turn (.of_state hid) hkept' htrace)

theorem finishes_updateState {u : State → Checked State}
    (h : ∀ s n, s.shape = sh → sh.Kept o.program n →
      Checked.Found (u s) fun s' ↦ s'.id = s.id ∧ s'.shape.InOrder o.program n) :
    (updateState u : Exec σ Unit).Finishes o fatal sh [.current] := fun f g hg ↦ by
  obtain ⟨hshape, hkept, -⟩ := hg.own_eq (by simp)
  refine ends_updateState ((h g.state g.bound hshape hkept).ordinary.mono fun s hs ↦ ⟨[], rfl, ?_⟩)
  exact hg.finish (.of_state hs.1) (fun _ ↦ hs.2) sh

theorem works_write {r : Register} (hnodup : (sh.threads.map (·.id)).Nodup) (hr : sh.HasRegister r)
    (value : Expr) : (write r value : Exec σ Unit).Works o fatal sh [.current] fun _ left ↦ left = [.current] :=
  fun f g hg ↦ by
    obtain ⟨hshape, -, -⟩ := hg.own_eq (by simp)
    refine ends_updateState ((State.found_write (hshape ▸ hnodup) (hshape ▸ hr) value).ordinary.mono fun s hs ↦ ?_)
    exact ⟨_, rfl, hg.rests (Focus.Still.of_state hs.1 hs.2).toRests⟩

theorem finishes_write {r : Register} (hsh : sh.Controlled o.program) (hr : sh.HasRegister r) (value : Expr) :
    (write r value : Exec σ Unit).Finishes o fatal sh [.current] :=
  (works_write hsh.nodup hr value).finishes hsh

theorem finishes_writeResult {r : Option Register} (hsh : sh.Controlled o.program)
    (hr : ∀ d, r = some d → sh.HasRegister d) (value : Expr) :
    (writeResult r value : Exec σ Unit).Finishes o fatal sh [.current] := by
  cases r with
  | none => exact (works_pure (Q := fun _ _ ↦ True) trivial).finishes hsh
  | some d => exact finishes_write hsh (hr d rfl) value

/-! ## States that end -/

theorem still_solution : (solution : Exec σ Solution).Still fun _ ↦ True := by
  refine still_bind still_state fun s _ ↦ still_bind (still_ask fun c ↦ Solver.looks_initialValues c _)
    fun r _ ↦ ?_
  split <;> exact still_pure trivial

theorem found_emit (termination : Termination) (details : Option String)
    (htrace : g.state.shape.Traceable g.executor.program) :
    (emit termination details).Found g fun _ h ↦ g.Still h := by
  refine ends_bind (still_solution g) (fun solution h hh ↦ ?_) fun _ _ hh ↦ hh.1
  refine ends_bind_ok rfl (ends_bind_ok rfl (ends_lift_bind ((State.plain_stackTrace ?_).ordinary.mono fun _ _ ↦ ?_)))
  · rw [hh.1.shape_eq, hh.1.program_eq]
    exact htrace
  · exact ends_modifyExecutor (hh.1.trans (.of_executor rfl rfl rfl rfl rfl rfl rfl rfl))

theorem found_terminate : (terminate : Exec σ Unit).Found g fun _ h ↦ g.Rests h := by
  refine ends_bind_ok rfl ?_
  split
  · exact ends_pure (Focus.Still.refl g).toRests
  · refine ends_bind_ok rfl (ends_modifyExecutor ⟨⟨rfl, rfl, rfl, rfl, rfl, rfl, Nat.le_refl _, rfl,
      fun id hid ↦ List.mem_append_left _ hid, fun id hid ↦ ?_⟩, rfl⟩)
    simpa using hid

theorem found_terminateWith (termination : Termination) (details : Option String)
    (htrace : g.Going → g.state.shape.Traceable g.executor.program) :
    (terminateWith termination details).Found g fun _ h ↦ g.Rests h := by
  refine ends_bind_ok rfl ?_
  split
  · exact ends_pure (Focus.Still.refl g).toRests
  · rename_i hgoing
    refine ends_bind (found_emit termination details (htrace (by simpa [Focus.Going] using hgoing)))
      (fun _ h hh ↦ ?_) fun _ _ hh ↦ hh.toRests
    exact found_terminate.mono fun _ _ hk ↦ hh.toRests.trans hk

theorem found_terminateOnError (error : PathError) (details : Option String)
    (htrace : g.Going → g.state.shape.Traceable g.executor.program) :
    (terminateOnError error details).Found g fun _ h ↦ g.Rests h := by
  have hend : ∀ g : Focus σ, g.state.shape.Traceable g.executor.program → (do
      emit (.error error.payload.kind error.payload.message) details
      modifyExecutor fun e ↦ { e with errors := e.errors ++ [error] }
      terminate : Exec σ Unit).Found g fun _ h ↦ g.Rests h := by
    intro g htrace
    refine ends_bind (found_emit _ details htrace) (fun _ h hh ↦ ends_bind_ok rfl ?_) fun _ _ hh ↦ hh.toRests
    refine found_terminate.mono fun _ _ hk ↦ hh.toRests.trans (.trans ?_ hk)
    exact Focus.Still.toRests (.of_executor rfl rfl rfl rfl rfl rfl rfl rfl)
  refine ends_bind_ok rfl ?_
  split
  · exact ends_pure (Focus.Still.refl g).toRests
  · rename_i hgoing
    have htrace := htrace (by simpa [Focus.Going] using hgoing)
    refine ends_bind_ok rfl ?_
    dsimp only
    split
    · split
      · exact hend g htrace
      · exact found_terminate
    · refine ends_bind_ok rfl (Ends.mono (hend _ htrace) fun _ _ hh ↦ .trans ?_ hh)
      exact Focus.Still.toRests (.of_executor rfl rfl rfl rfl rfl rfl rfl rfl)

theorem still_addressInfo (address : Expr) : (addressInfo address : Exec σ String).Still fun _ ↦ True := by
  have hnear (value : Nat) : (addressInfo.neighbours value : Exec σ String).Still fun _ ↦ True :=
    still_bind still_state fun _ _ ↦ still_pure trivial
  unfold addressInfo
  dsimp only
  split
  · exact still_bind (hnear _) fun _ _ ↦ still_pure trivial
  · refine still_bind (still_ask fun c ↦ Solver.looks_value c _) fun r _ ↦ ?_
    split
    · exact still_pure trivial
    · refine still_bind (still_ask fun c ↦ Solver.looks_range c _) fun r _ ↦ ?_
      split <;> exact still_bind (still_pure (R := fun _ ↦ True) trivial) fun _ _ ↦
        still_bind (hnear _) fun _ _ ↦ still_pure trivial

theorem found_quits {x : Exec σ Unit} (hquits : x.Quits) (hg : Stand o sh [.current] f g)
    (hx : (g.Going → g.state.shape.Traceable g.executor.program) → x.Found g fun _ h ↦ g.Rests h) :
    x.Found g fun r h ↦ r = .ok () ∧ g.Rests h ∧ ¬h.Going := by
  obtain ⟨hshape, -, htrace⟩ := hg.own_eq (by simp)
  have hfound := hx fun _ ↦ by
    rw [hshape, hg.reaches.program_eq]
    exact htrace
  refine (hfound.and (hquits g)).mono ?_
  rintro _ h ⟨hrests, _, rfl, hend⟩
  exact ⟨rfl, hrests, hend⟩

theorem finishes_of_quits {x : Exec σ Unit} (hquits : x.Quits)
    (hx : ∀ g : Focus σ, (g.Going → g.state.shape.Traceable g.executor.program) →
      x.Found g fun _ h ↦ g.Rests h) : x.Finishes o fatal sh [.current] := fun f g hg ↦ by
  refine (found_quits hquits hg (hx g)).mono ?_
  rintro _ h ⟨rfl, hrests, hend⟩
  exact ⟨[], rfl, hg.finish hrests.toAlone (fun hgoing ↦ (hend hgoing).elim) sh⟩

theorem finishes_terminateWith (termination : Termination) (details : Option String) :
    (terminateWith termination details : Exec σ Unit).Finishes o fatal sh [.current] :=
  finishes_of_quits (quits_terminateWith termination details) fun _ ↦ found_terminateWith termination details

theorem finishes_terminateOnError (error : PathError) (details : Option String) :
    (terminateOnError error details : Exec σ Unit).Finishes o fatal sh [.current] :=
  finishes_of_quits (quits_terminateOnError error details) fun _ ↦ found_terminateOnError error details

theorem found_settle_rests {e : PathError} (he : e.payload.isFatal = false)
    (htrace : g.Going → g.state.shape.Traceable g.executor.program) :
    (settle e).Found g fun r h ↦ r = .ok () ∧ g.Rests h ∧ ¬h.Going := by
  have hfound : (settle e).Found g fun _ h ↦ g.Rests h := by
    unfold settle
    rw [if_neg (by simpa using he)]
    split
    · exact found_terminateWith _ _ htrace
    · exact found_terminateOnError _ _ htrace
  refine (hfound.and (quits_settle he g)).mono ?_
  rintro _ h ⟨hrests, _, rfl, hend⟩
  exact ⟨rfl, hrests, hend⟩

theorem found_settle {e : PathError} (hg : Fails o fatal e f g) : (settle e).Found g fun r h ↦
    match r with
    | .ok _ => ∀ sh, Stand o sh [] f h
    | .error e' => e'.payload.isFatal = true ∧ Fails o fatal e' f h := by
  by_cases he : e.payload.isFatal = true
  · unfold settle
    rw [if_pos he]
    exact ends_throw ⟨he, hg⟩
  · refine (found_settle_rests (by simpa using he) fun hgoing ↦ ?_).mono ?_
    · rw [hg.reaches.program_eq]
      obtain hsh | ⟨-, hsh, -⟩ := hg.reaches.own hgoing
      · exact hsh.traceable
      · exact hsh
    · rintro _ h ⟨rfl, hrests, hend⟩
      exact hg.finish hrests.toAlone hend

/-! ## Branches -/

theorem found_settling (hx : x.Works o fatal sh [.current] Q) (hg : Stand o sh [.current] f g) :
    (settling x).Found g fun r h ↦
      match r with
      | .ok none => Stand o sh [] f h
      | .ok (some a) => ∃ left, Q a left ∧ Stand o sh left f h
      | .error e => e.payload.isFatal = true ∧ Fails o fatal e f h := by
  refine ends_settling (fun hdone ↦ ?_) fun _ ↦ (hx f g hg).mono fun r h hr ↦ ?_
  · exact hg.finish (Focus.Still.refl g).toAlone (fun hgoing ↦ (hgoing (by simpa using hdone)).elim) sh
  · cases r with
    | ok a => exact hr
    | error e =>
      refine (found_settle hr).mono fun r k hk ↦ ?_
      cases r with
      | ok _ => exact hk sh
      | error e' => exact hk

theorem works_onBranch {b : Branch} (hx : x.Works o fatal sh [.current] Q)
    (hfatal : fatal → sh.Controlled o.program ∧ o.start.Controlled o.program) :
    (onBranch b x).Works o fatal sh (b :: todo) fun r left ↦
      (r = none ∧ left = todo) ∨
        ∃ a parts, r = some a ∧ Q a parts ∧ left = parts.map (·.relativeTo b) ++ todo := fun f g hg ↦ by
  cases b with
  | current =>
    have hsame : ∀ parts : List Branch, parts.map (·.relativeTo .current) = parts := by
      intro parts
      refine (List.map_congr_left fun b _ ↦ ?_).trans (List.map_id parts)
      cases b <;> rfl
    refine (found_settling hx hg.start_current).mono fun r h hr ↦ ?_
    match r with
    | .ok none => exact ⟨todo, .inl ⟨rfl, rfl⟩, hg.join_current hr⟩
    | .ok (some a) =>
      obtain ⟨parts, hparts, hh⟩ := hr
      exact ⟨parts ++ todo, .inr ⟨a, parts, rfl, hparts, by rw [hsame]⟩, hg.join_current hh⟩
    | .error e => exact .join_current hg hr.2 (hfatal (hr.2.fatal hr.1)).1
  | forked id =>
    refine ends_bind (P := fun r h ↦
      match r with
      | .ok o' => (o'.join = none ∧ Stand o sh todo f h) ∨ ∃ a parts, o'.join = some a ∧ Q a parts ∧
          Stand o sh (parts.map (·.relativeTo (.forked id)) ++ todo) f h
      | .error e => Fails o fatal e f h) (ends_visit (fun hnone ↦ ?_) fun s hs ↦ ?_) ?_ fun _ _ he ↦ he
    · exact .inl ⟨rfl, hg.absent hnone⟩
    · refine (found_settling hx (hg.start_forked hs)).mono fun r h hr ↦ ?_
      match r with
      | .ok none => exact .inl ⟨rfl, by simpa using hg.join_forked hs hr⟩
      | .ok (some a) =>
        obtain ⟨parts, hparts, hh⟩ := hr
        exact .inr ⟨a, parts, rfl, hparts, hg.join_forked hs hh⟩
      | .error e =>
        obtain ⟨hsh, hstart⟩ := hfatal (hr.2.fatal hr.1)
        exact .join_forked hg hs hr.2 hsh hstart hr.1
    · rintro o' h (⟨hnone, hh⟩ | ⟨a, parts, hsome, hparts, hh⟩)
      · exact ends_pure ⟨todo, .inl ⟨hnone, rfl⟩, hh⟩
      · exact ends_pure ⟨_, .inr ⟨a, parts, hsome, hparts, rfl⟩, hh⟩

theorem works_onBranch_still {b : Branch} (hx : x.Still R) :
    (onBranch b x).Works o fatal sh (b :: todo) fun _ left ↦ left = b :: todo := fun f g hg ↦ by
  have hsettling : ∀ f g : Focus σ, Stand o sh [.current] f g → (settling x).Found g fun r h ↦
      (∃ a, r = .ok a) ∧ Stand o sh [.current] f h := by
    intro f g hg
    obtain ⟨hshape, -, htrace⟩ := hg.own_eq (by simp)
    refine ends_settling (fun _ ↦ ⟨⟨_, rfl⟩, hg⟩) fun _ ↦ (hx g).mono fun r h hr ↦ ?_
    have hh := hg.rests hr.1.toRests
    cases r with
    | ok a => exact ⟨⟨_, rfl⟩, hh⟩
    | error e =>
      refine (found_settle_rests (hr.2.2 e rfl) fun _ ↦ ?_).mono ?_
      · rw [(hh.own_eq (by simp)).1, hh.reaches.program_eq]
        exact htrace
      · rintro _ k ⟨rfl, hrests, -⟩
        exact ⟨⟨_, rfl⟩, hh.rests hrests⟩
  cases b with
  | current =>
    refine (hsettling g g hg.start_current).mono ?_
    rintro _ h ⟨⟨a, rfl⟩, hh⟩
    exact ⟨_, rfl, hg.join_current hh⟩
  | forked id =>
    refine ends_bind (P := fun r h ↦ (∃ a, r = .ok a) ∧ Stand o sh (.forked id :: todo) f h)
      (ends_visit (fun _ ↦ ⟨⟨_, rfl⟩, hg⟩) fun s hs ↦ ?_) (fun _ _ hh ↦ ends_pure ⟨_, rfl, hh.2⟩) ?_
    · refine (hsettling _ _ (hg.start_forked hs)).mono ?_
      rintro _ h ⟨⟨a, rfl⟩, hh⟩
      exact ⟨⟨_, rfl⟩, hg.join_forked hs hh⟩
    · rintro _ _ ⟨⟨_, ⟨⟩⟩, -⟩

theorem works_onSide {side : Option Branch} {x : Exec σ Unit} (hx : x.Finishes o fatal sh [.current])
    (hfatal : fatal → sh.Controlled o.program ∧ o.start.Controlled o.program) :
    (onSide side x).Works o fatal sh (side.toList ++ todo) fun _ left ↦ left = todo := by
  cases side with
  | none => exact works_pure rfl
  | some b =>
    refine works_bind (works_onBranch hx hfatal) fun _ left hleft ↦ works_pure ?_
    obtain ⟨-, rfl⟩ | ⟨_, _, -, rfl, rfl⟩ := hleft
    · rfl
    · rfl

theorem finishes_onSide {side : Option Branch} {x : Exec σ Unit} (hx : x.Finishes o fatal sh [.current])
    (hfatal : fatal → sh.Controlled o.program ∧ o.start.Controlled o.program) :
    (onSide side x).Finishes o fatal sh side.toList := by
  have hside : (onSide side x).Works o fatal sh (side.toList ++ []) fun _ left ↦ left = [] :=
    works_onSide hx hfatal
  rwa [List.append_nil] at hside

theorem finishes_forIn {γ : Type} {l : List γ} {place : γ → Option Branch} {work : γ → Exec σ Unit}
    (hwork : ∀ q ∈ l, (work q).Finishes o fatal sh [.current])
    (hfatal : fatal → sh.Controlled o.program ∧ o.start.Controlled o.program) :
    (forIn l PUnit.unit fun q _ ↦ do
      onSide (place q) (work q)
      pure (ForInStep.yield PUnit.unit) : Exec σ PUnit).Finishes o fatal sh (l.filterMap place) := by
  induction l with
  | nil => exact works_pure rfl
  | cons q l ih =>
    rw [List.forall_mem_cons] at hwork
    have hplaces : (q :: l).filterMap place = (place q).toList ++ l.filterMap place := by
      cases hq : place q with
      | none => rw [List.filterMap_cons_none hq, Option.toList_none, List.nil_append]
      | some b => rw [List.filterMap_cons_some hq, Option.toList_some, List.singleton_append]
    rw [List.forIn_cons, hplaces]
    refine works_bind (Q := fun r left ↦ r = ForInStep.yield PUnit.unit ∧ left = l.filterMap place) ?_ ?_
    · refine works_bind (works_onSide hwork.1 hfatal) ?_
      rintro _ _ rfl
      exact works_pure ⟨rfl, rfl⟩
    · rintro _ _ ⟨rfl, rfl⟩
      exact ih hwork.2

end Exec

end Symex
