import Symex.Proofs.Lineage.Moves

namespace Symex

open Checked

variable {σ α β : Type}

namespace Exec

variable {focus : Focus σ} {x : Exec σ α} {k : α → Exec σ β}

/-- Unless it ends in a fault, the work gives a result, and `Q` holds of it and of what becomes of the
focus. -/
abbrev Yields (x : Exec σ α) (focus : Focus σ) (Q : α → Focus σ → Prop) : Prop :=
  x.Ends (fun _ ↦ True) focus fun r f ↦ ∃ a, r = .ok a ∧ Q a f

section

variable {Q Q' : α → Focus σ → Prop} {T : β → Focus σ → Prop} {a : α}

theorem yields_pure (h : Q a focus) : (pure a : Exec σ α).Yields focus Q := ends_pure ⟨a, rfl, h⟩

theorem yields_bind {P : Except PathError β → Focus σ → Prop} (hx : x.Yields focus Q)
    (hk : ∀ a f, Q a f → (k a).Ends (fun _ ↦ True) f P) : (x >>= k).Ends (fun _ ↦ True) focus P := by
  refine ends_bind hx ?_ fun _ _ h ↦ ?_
  · rintro a f ⟨_, ⟨⟩, h⟩
    exact hk a f h
  · obtain ⟨_, ⟨⟩, -⟩ := h

theorem yields_lift {c : Checked α} {P : α → Prop} (h : Safe c P) :
    (liftM c : Exec σ α).Yields focus fun a f ↦ focus = f ∧ P a :=
  ends_lift ((h.mono fun a ha ↦ ⟨a, rfl, rfl, ha⟩).weaken fun _ _ ↦ trivial)

theorem Yields.mono (hx : x.Yields focus Q) (h : ∀ a f, Q a f → Q' a f) : x.Yields focus Q' :=
  Ends.mono hx fun _ f ⟨a, hr, ha⟩ ↦ ⟨a, hr, h a f ha⟩

theorem Yields.and {F : Fault → Prop} {R : Except PathError α → Focus σ → Prop} (hx : x.Yields focus Q)
    (hx' : x.Ends F focus R) : x.Yields focus fun a f ↦ Q a f ∧ R (.ok a) f :=
  (Ends.and hx hx').mono fun _ _ ⟨⟨a, hr, ha⟩, h⟩ ↦ ⟨a, hr, ha, hr ▸ h⟩

theorem yields_foldlM {γ : Type} {body : β → γ → Exec σ β} {l : List γ} {b : β}
    {J : List γ → β → Focus σ → Prop} (h : J l b focus)
    (hstep : ∀ x rest b f, J (x :: rest) b f → (body b x).Yields f (J rest)) :
    (l.foldlM body b).Yields focus (J []) := by
  induction l generalizing b focus with
  | nil => exact yields_pure h
  | cons x l ih =>
    rw [List.foldlM_cons]
    exact yields_bind (hstep x l b focus h) fun b' f hb' ↦ ih hb'

end

theorem yields_forIn {γ : Type} {body : γ → PUnit → Exec σ (ForInStep PUnit)} {l : List γ}
    {J : List γ → Focus σ → Prop} (h : J l focus)
    (hstep : ∀ x rest f, J (x :: rest) f → (body x ⟨⟩).Yields f fun r f' ↦ r = .yield ⟨⟩ ∧ J rest f') :
    (forIn l ⟨⟩ body : Exec σ PUnit).Yields focus fun _ f ↦ J [] f := by
  induction l generalizing focus with
  | nil => exact yields_pure h
  | cons x l ih =>
    rw [List.forIn_cons]
    refine yields_bind (hstep x l focus h) ?_
    rintro _ f ⟨rfl, h⟩
    exact ih h

theorem yields_mapM {γ : Type} {f : γ → Exec σ β} {R : β → Prop} {l : List γ}
    (hf : ∀ x ∈ l, ∀ focus, (f x).Yields focus fun b _ ↦ R b) :
    (l.mapM f).Yields focus fun bs _ ↦ ∀ b ∈ bs, R b := by
  induction l generalizing focus with
  | nil => exact yields_pure nofun
  | cons x l ih =>
    rw [List.forall_mem_cons] at hf
    rw [List.mapM_cons]
    exact yields_bind (hf.1 focus) fun _ _ hb ↦ yields_bind (ih hf.2) fun _ _ hbs ↦
      yields_pure (List.forall_mem_cons.2 ⟨hb, hbs⟩)

/-- Unless it ends in a fault, the work gives a result. -/
def Total (x : Exec σ α) : Prop := ∀ focus, x.Yields focus fun _ _ ↦ True

theorem total_pure (a : α) : (pure a : Exec σ α).Total := fun _ ↦ yields_pure trivial

theorem total_bind (hx : x.Total) (hk : ∀ a, (k a).Total) : (x >>= k).Total := fun focus ↦
  yields_bind (hx focus) fun a f _ ↦ hk a f

theorem total_lift (c : Checked α) : (liftM c : Exec σ α).Total := fun _ ↦
  ends_lift (ends_true_iff.2 fun a _ ↦ ⟨a, rfl, trivial⟩)

theorem total_modifyExecutor (f : Executor σ → Executor σ) : (modifyExecutor f).Total := fun _ ↦
  ends_modifyExecutor ⟨(), rfl, trivial⟩

theorem total_updateState (f : State → Checked State) : (updateState f : Exec σ Unit).Total := fun _ ↦
  ends_updateState (ends_true_iff.2 fun _ _ ↦ ⟨(), rfl, trivial⟩)

theorem total_seeds? : (seeds? : Exec σ _).Total := fun _ ↦ ends_bind_ok rfl (yields_pure trivial)

theorem total_state : (state : Exec σ _).Total := fun _ ↦ ends_state ⟨_, rfl, trivial⟩

theorem total_executor : (executor : Exec σ _).Total := fun _ ↦ ends_executor ⟨_, rfl, trivial⟩

theorem total_draw (f : Rng → α × Rng) : (draw f : Exec σ α).Total := fun _ ↦ ends_draw ⟨_, rfl, trivial⟩

theorem total_ask (question : ConstraintSet → Ask σ α) : (ask question).Total := fun _ ↦
  ends_bind_ok rfl (yields_bind (total_lift _ _) fun _ _ _ ↦ ends_bind_ok rfl (yields_pure trivial))

theorem total_mapM {γ : Type} {f : γ → Exec σ β} {l : List γ} (hf : ∀ x ∈ l, (f x).Total) : (l.mapM f).Total :=
  fun _ ↦ (yields_mapM (R := fun _ ↦ True) hf).mono fun _ _ _ ↦ trivial

theorem total_emit (termination : Termination) (details : Option String) :
    (emit termination details : Exec σ Unit).Total := by
  have hsolution : (solution : Exec σ Solution).Total := by
    refine total_bind total_state fun _ ↦ total_bind (total_ask _) fun _ ↦ ?_
    split <;> exact total_pure _
  exact total_bind hsolution fun _ ↦ total_bind total_state fun _ ↦ total_bind total_executor fun _ ↦
    total_bind (total_lift _) fun _ ↦ total_modifyExecutor _

theorem total_addressInfo (address : Expr) : (addressInfo address : Exec σ String).Total := by
  have hnear (value : Nat) : (addressInfo.neighbours value : Exec σ String).Total :=
    total_bind total_state fun _ ↦ total_pure _
  unfold addressInfo
  dsimp only
  split
  · exact total_bind (hnear _) fun _ ↦ total_pure _
  · refine total_bind (total_ask _) fun r ↦ ?_
    split
    · exact total_pure _
    · refine total_bind (total_ask _) fun r ↦ ?_
      split <;> exact total_bind (total_pure _) fun _ ↦ total_bind (hnear _) fun _ ↦ total_pure _

def Concerns (x : Exec σ α) : Prop :=
  ∀ focus, x.Ends (fun _ ↦ True) focus fun r _ ↦ ∀ e, r = .error e → e.payload.isFatal = false

theorem Total.concerns (hx : x.Total) : x.Concerns := fun focus ↦
  Ends.mono (hx focus) fun _ _ ⟨_, ha, _⟩ ↦ ha ▸ nofun

theorem concerns_fail {e : ExecError} (h : e.isFatal = false) : (fail e : Exec σ α).Concerns := fun _ ↦
  ends_fail (by rintro _ ⟨⟩; exact h)

theorem concerns_bind (hx : x.Concerns) (hk : ∀ a, (k a).Concerns) : (x >>= k).Concerns := fun focus ↦
  ends_bind (hx focus) (fun a f _ ↦ hk a f) fun _ _ h _ he ↦ Except.error.inj he ▸ h _ rfl

theorem concerns_query (question : ConstraintSet → Ask σ α) : (query question).Concerns := by
  refine concerns_bind (total_ask question).concerns fun r ↦ ?_
  split
  · exact (total_pure _).concerns
  · exact concerns_fail rfl

/-- Unless it ends in a fault, the work ends the state. -/
def Quits (x : Exec σ α) : Prop := ∀ focus, x.Yields focus fun _ f ↦ ¬f.Going

theorem quits_bind (hx : x.Total) (hk : ∀ a, (k a).Quits) : (x >>= k).Quits := fun focus ↦
  yields_bind (hx focus) fun a f _ ↦ hk a f

theorem quits_unless_terminated {y : Exec σ Unit} (hy : y.Quits) :
    (do if ← isTerminated then return
        y : Exec σ Unit).Quits := by
  refine fun focus ↦ ends_bind_ok rfl ?_
  split
  · rename_i h
    exact yields_pure fun hgoing ↦ hgoing (by simpa using h)
  · exact hy focus

theorem quits_terminate : (terminate : Exec σ Unit).Quits :=
  quits_unless_terminated fun _ ↦ ends_bind_ok rfl (ends_modifyExecutor ⟨(), rfl, fun hgoing ↦
    hgoing (List.mem_append_right _ (List.mem_singleton_self _))⟩)

theorem quits_terminateWith (termination : Termination) (details : Option String) :
    (terminateWith termination details : Exec σ Unit).Quits :=
  quits_unless_terminated (quits_bind (total_emit termination details) fun _ ↦ quits_terminate)

theorem quits_terminateOnError (error : PathError) (details : Option String) :
    (terminateOnError error details : Exec σ Unit).Quits := by
  have hend : (do
      emit (.error error.payload.kind error.payload.message) details
      modifyExecutor fun e ↦ { e with errors := e.errors ++ [error] }
      terminate : Exec σ Unit).Quits :=
    quits_bind (total_emit _ _) fun _ ↦ quits_bind (total_modifyExecutor _) fun _ ↦ quits_terminate
  refine quits_unless_terminated (quits_bind total_executor fun _ ↦ ?_)
  dsimp only
  split
  · split
    · exact hend
    · exact quits_terminate
  · exact quits_bind (total_modifyExecutor _) fun _ ↦ hend

theorem quits_settle {error : PathError} (h : error.payload.isFatal = false) :
    (settle error : Exec σ Unit).Quits := by
  unfold settle
  rw [h]
  split
  · exact absurd ‹_› (by decide)
  · split
    · exact quits_terminateWith _ _
    · exact quits_terminateOnError _ _

end Exec

end Symex
