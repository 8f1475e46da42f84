import Symex.Proofs.Lineage.Runs
import Symex.Proofs.Threads.Waits

namespace Symex

open Checked

variable {σ α β : Type}

/-- What passes from a state to what says the same of waiting: the same state later on, and copies, whose ids are
`n` or more. -/
class Carried (n : StateId) (P : State → Prop) : Prop where
  same : ∀ s s' : State, P s → s.SameWaits s' → s'.id = s.id → P s'
  copy : ∀ s s' : State, P s → s.SameWaits s' → n ≤ s'.id → P s'

instance : Carried 0 fun _ ↦ True where
  same _ _ _ _ _ := trivial
  copy _ _ _ _ _ := trivial

variable {n : StateId} {P : State → Prop} {f g : Focus σ}

/-- All states of the machine are as `P` says, and so is the one that it works on. -/
structure Focus.Everywhere (n : StateId) (P : State → Prop) (f : Focus σ) : Prop where
  state : P f.state
  states : ∀ (id : StateId) (s : State), f.executor.states[id]? = some s → P s
  next_le : n ≤ f.executor.nextStateId

namespace Focus.Everywhere

theorem withState {s : State} (h : f.Everywhere n P) (hs : P s) : Focus.Everywhere n P { f with state := s } :=
  ⟨hs, h.states, h.next_le⟩

theorem withExecutor {e : Executor σ} (h : f.Everywhere n P) (hstates : e.states = f.executor.states)
    (hnext : e.nextStateId = f.executor.nextStateId) : Focus.Everywhere n P ⟨e, f.state⟩ :=
  ⟨h.state, fun id s hs ↦ h.states id s (hstates ▸ hs), hnext ▸ h.next_le⟩

theorem insert {id : StateId} {s : State} (h : f.Everywhere n P) (hs : P s) :
    Focus.Everywhere n P { f with executor := { f.executor with states := f.executor.states.insert id s } } := by
  refine ⟨h.state, fun id' s' hs' ↦ ?_, h.next_le⟩
  rw [Std.TreeMap.getElem?_insert] at hs'
  split at hs'
  · exact Option.some.inj hs' ▸ hs
  · exact h.states id' s' hs'

theorem erase {id : StateId} (h : f.Everywhere n P) :
    Focus.Everywhere n P { f with executor := { f.executor with states := f.executor.states.erase id } } := by
  refine ⟨h.state, fun id' s' hs' ↦ ?_, h.next_le⟩
  rw [Std.TreeMap.getElem?_erase] at hs'
  split at hs'
  · cases hs'
  · exact h.states id' s' hs'

end Focus.Everywhere

namespace Exec

/-- However the work ends, all states are still as `P` says. It does not end in a deadlock, and `R` holds of its
result. -/
def Maintains (n : StateId) (P : State → Prop) (x : Exec σ α) (R : α → Prop) : Prop :=
  ∀ f : Focus σ, f.Everywhere n P → x.Ends (fun _ ↦ True) f fun r g ↦
    g.Everywhere n P ∧ (∀ a, r = .ok a → R a) ∧ ∀ error, r = .error error → error.payload ≠ .deadlock

variable {R R' : α → Prop} {T : β → Prop} {x : Exec σ α} {k : α → Exec σ β} {a : α}

theorem maintains_pure (h : R a) : (pure a : Exec σ α).Maintains n P R := fun _ hf ↦
  ends_pure ⟨hf, by rintro _ ⟨⟩; exact h, nofun⟩

theorem maintains_fail {error : ExecError} (h : error ≠ .deadlock) : (fail error : Exec σ α).Maintains n P R :=
  fun _ hf ↦ ends_fail ⟨hf, nofun, by rintro _ ⟨⟩; exact h⟩

theorem maintains_bind (hx : x.Maintains n P R) (hk : ∀ a, R a → (k a).Maintains n P T) :
    (x >>= k).Maintains n P T :=
  fun f hf ↦ ends_bind (hx f hf) (fun a g h ↦ hk a (h.2.1 a rfl) g h.1) fun error _ h ↦
    ⟨h.1, nofun, by rintro _ ⟨⟩; exact h.2.2 error rfl⟩

theorem Maintains.mono (hx : x.Maintains n P R) (h : ∀ a, R a → R' a) : x.Maintains n P R' := fun f hf ↦
  (hx f hf).mono fun _ _ hr ↦ ⟨hr.1, fun a ha ↦ h a (hr.2.1 a ha), hr.2.2⟩

theorem maintains_lift {c : Checked α} (h : Checked.Ends (fun _ ↦ True) c R) :
    (liftM c : Exec σ α).Maintains n P R := fun _ hf ↦
  ends_lift (h.mono fun _ hr ↦ ⟨hf, by rintro _ ⟨⟩; exact hr, nofun⟩)

theorem maintains_ofExcept {r : Except PathError α} (h : ∀ error, r = .error error → error.payload ≠ .deadlock) :
    (MonadExcept.ofExcept r : Exec σ α).Maintains n P fun _ ↦ True := fun _ hf ↦
  ends_ofExcept ⟨hf, fun _ _ ↦ trivial, h⟩

theorem maintains_mapM {γ : Type} {w : γ → Exec σ β} {l : List γ} (hw : ∀ x ∈ l, (w x).Maintains n P T) :
    (l.mapM w).Maintains n P fun r ↦ ∀ b ∈ r, T b := by
  induction l with
  | nil => exact maintains_pure (by simp)
  | cons x l ih =>
    rw [List.forall_mem_cons] at hw
    rw [List.mapM_cons]
    refine maintains_bind hw.1 fun b hb ↦ maintains_bind (ih hw.2) fun r hr ↦ maintains_pure ?_
    exact List.forall_mem_cons.2 ⟨hb, hr⟩

theorem maintains_foldlM {γ : Type} {w : β → γ → Exec σ β} {l : List γ} {b : β}
    (hw : ∀ b, ∀ x ∈ l, (w b x).Maintains n P fun _ ↦ True) : (l.foldlM w b).Maintains n P fun _ ↦ True := by
  induction l generalizing b with
  | nil => exact maintains_pure trivial
  | cons x l ih =>
    rw [List.foldlM_cons]
    exact maintains_bind (hw b x List.mem_cons_self) fun _ _ ↦
      ih fun b y hy ↦ hw b y (List.mem_cons_of_mem _ hy)

theorem maintains_forIn {γ : Type} {w : γ → PUnit → Exec σ (ForInStep PUnit)} {l : List γ}
    (hw : ∀ x ∈ l, (w x ⟨⟩).Maintains n P (· = .yield ⟨⟩)) :
    (forIn l ⟨⟩ w : Exec σ PUnit).Maintains n P fun _ ↦ True := by
  induction l with
  | nil => exact maintains_pure trivial
  | cons x l ih =>
    rw [List.forall_mem_cons] at hw
    rw [List.forIn_cons]
    refine maintains_bind hw.1 ?_
    rintro _ rfl
    exact ih hw.2

/-! ## The focus -/

theorem maintains_executor : (executor : Exec σ _).Maintains n P fun _ ↦ True := fun _ hf ↦
  ends_executor ⟨hf, fun _ _ ↦ trivial, nofun⟩

theorem maintains_state : (state : Exec σ State).Maintains n P P := fun _ hf ↦
  ends_state ⟨hf, by rintro _ ⟨⟩; exact hf.state, nofun⟩

theorem maintains_modifyExecutor {u : Executor σ → Executor σ} (hstates : ∀ e, (u e).states = e.states)
    (hnext : ∀ e, (u e).nextStateId = e.nextStateId) : (modifyExecutor u).Maintains n P fun _ ↦ True := fun _ hf ↦
  ends_modifyExecutor ⟨hf.withExecutor (hstates _) (hnext _), fun _ _ ↦ trivial, nofun⟩

theorem maintains_setState {s : State} (hs : P s) : (setState s : Exec σ Unit).Maintains n P fun _ ↦ True :=
  fun _ hf ↦ ends_setState ⟨hf.withState hs, fun _ _ ↦ trivial, nofun⟩

theorem maintains_updateState {u : State → Checked State}
    (h : ∀ s, P s → Checked.Ends (fun _ ↦ True) (u s) P) :
    (updateState u : Exec σ Unit).Maintains n P fun _ ↦ True := fun f hf ↦
  ends_updateState ((h f.state hf.state).mono fun _ hs ↦ ⟨hf.withState hs, fun _ _ ↦ trivial, nofun⟩)

theorem maintains_draw (d : Rng → α × Rng) : (draw d : Exec σ α).Maintains n P fun _ ↦ True := fun _ hf ↦
  ends_draw ⟨hf.withExecutor rfl rfl, fun _ _ ↦ trivial, nofun⟩

theorem maintains_isTerminated : (isTerminated : Exec σ Bool).Maintains n P fun _ ↦ True := fun _ hf ↦
  ends_isTerminated ⟨hf, fun _ _ ↦ trivial, nofun⟩

theorem maintains_ask (question : ConstraintSet → Ask σ α) :
    (ask question).Maintains n P fun _ ↦ True := fun _ hf ↦
  ends_ask_any (ends_true_iff.2 fun _ _ ↦ ⟨hf.withExecutor rfl rfl, fun _ _ ↦ trivial, nofun⟩)

theorem maintains_query (question : ConstraintSet → Ask σ α) : (query question).Maintains n P fun _ ↦ True := by
  refine maintains_bind (maintains_ask question) fun r _ ↦ ?_
  split
  · exact maintains_pure trivial
  · exact maintains_fail nofun

theorem maintains_seeds? : (seeds? : Exec σ _).Maintains n P fun _ ↦ True := fun _ hf ↦
  ends_bind_ok rfl (ends_pure ⟨hf, fun _ _ ↦ trivial, nofun⟩)

theorem maintains_forkInhibited : (forkInhibited : Exec σ Bool).Maintains n P fun _ ↦ True := fun _ hf ↦
  ends_bind_ok rfl (ends_pure ⟨hf, fun _ _ ↦ trivial, nofun⟩)

theorem maintains_setSeeds (id : StateId) (seeds : List Seed) :
    (setSeeds id seeds : Exec σ Unit).Maintains n P fun _ ↦ True :=
  maintains_modifyExecutor (fun _ ↦ rfl) fun _ ↦ rfl

theorem maintains_insertState {s : State} (hs : P s) :
    (insertState s : Exec σ Unit).Maintains n P fun _ ↦ True := fun _ hf ↦
  ends_modifyExecutor ⟨hf.insert hs, fun _ _ ↦ trivial, nofun⟩

/-! ## States that end -/

theorem maintains_within {s : State} (hs : P s) (hx : x.Maintains n P R) : (within s x).Maintains n P fun p ↦
    P p.2 ∧ ∀ error, p.1 = .error error → error.payload ≠ .deadlock := fun f hf ↦
  ends_within ((hx _ (hf.withState hs)).mono fun _ _ h ↦
    ⟨h.1.withState hf.state, by rintro _ ⟨⟩; exact ⟨h.1.state, h.2.2⟩, nofun⟩)

theorem maintains_visit (id : StateId) (hx : x.Maintains n P R) :
    (visit id x).Maintains n P fun o ↦ ∀ a, o = some a → R a := fun f hf ↦
  ends_visit (fun _ ↦ ⟨hf, by rintro _ ⟨⟩; nofun, nofun⟩) fun s hs ↦
    (hx _ (hf.erase.withState (hf.states id s hs))).mono fun r g h ↦ by
      refine ⟨(h.1.insert h.1.state).withState hf.state, fun o ho a ha ↦ ?_, fun error herror ↦ ?_⟩
      · cases r with
        | ok b =>
          obtain rfl := Except.ok.inj ho
          exact h.2.1 a (by rw [Option.some.inj ha])
        | error _ => cases ho
      · cases r with
        | ok _ => cases herror
        | error _ => exact h.2.2 error (by rw [Except.error.inj herror])

theorem maintains_terminate : (terminate : Exec σ Unit).Maintains n P fun _ ↦ True := by
  refine maintains_bind maintains_isTerminated fun _ _ ↦ ?_
  split
  · exact maintains_pure trivial
  · exact maintains_bind maintains_state fun _ _ ↦ maintains_modifyExecutor (fun _ ↦ rfl) fun _ ↦ rfl

theorem maintains_emit (termination : Termination) (details : Option String) :
    (emit termination details : Exec σ Unit).Maintains n P fun _ ↦ True := by
  have hsolution : (solution : Exec σ Solution).Maintains n P fun _ ↦ True := by
    refine maintains_bind maintains_state fun _ _ ↦ maintains_bind (maintains_ask _) fun _ _ ↦ ?_
    split <;> exact maintains_pure trivial
  exact maintains_bind hsolution fun _ _ ↦ maintains_bind maintains_state fun _ _ ↦
    maintains_bind maintains_executor fun _ _ ↦ maintains_bind (maintains_lift (R := fun _ ↦ True)
      (ends_true_iff.2 fun _ _ ↦ trivial)) fun _ _ ↦ maintains_modifyExecutor (fun _ ↦ rfl) fun _ ↦ rfl

theorem maintains_terminateWith (termination : Termination) (details : Option String) :
    (terminateWith termination details : Exec σ Unit).Maintains n P fun _ ↦ True := by
  refine maintains_bind maintains_isTerminated fun _ _ ↦ ?_
  split
  · exact maintains_pure trivial
  · exact maintains_bind (maintains_emit termination details) fun _ _ ↦ maintains_terminate

theorem maintains_settle (error : PathError) : (settle error : Exec σ Unit).Maintains n P fun _ ↦ True := by
  have hend (termination : Termination) (details : Option String) : (do
      emit termination details
      modifyExecutor fun e ↦ { e with errors := e.errors ++ [error] }
      terminate : Exec σ Unit).Maintains n P fun _ ↦ True :=
    maintains_bind (maintains_emit _ _) fun _ _ ↦
      maintains_bind (maintains_modifyExecutor (fun _ ↦ rfl) fun _ ↦ rfl) fun _ _ ↦ maintains_terminate
  unfold settle
  split
  · rename_i hfatal
    refine fun _ hf ↦ ends_throw ⟨hf, nofun, ?_⟩
    rintro _ ⟨⟩ heq
    rw [heq] at hfatal
    cases hfatal
  · split
    · exact maintains_terminateWith _ _
    · refine maintains_bind maintains_isTerminated fun _ _ ↦ ?_
      split
      · exact maintains_pure trivial
      · refine maintains_bind maintains_executor fun _ _ ↦ ?_
        dsimp only
        split
        · split
          · exact hend _ _
          · exact maintains_terminate
        · exact maintains_bind (maintains_modifyExecutor (fun _ ↦ rfl) fun _ ↦ rfl) fun _ _ ↦ hend _ _

theorem maintains_settling (hx : x.Maintains n P R) : (settling x).Maintains n P fun o ↦ ∀ a, o = some a → R a :=
  fun f hf ↦ ends_settling (fun _ ↦ ⟨hf, by rintro _ ⟨⟩; nofun, nofun⟩) fun _ ↦
    (hx f hf).mono fun r g h ↦ by
      cases r with
      | ok a => exact ⟨h.1, by rintro _ ⟨⟩ a ⟨⟩; exact h.2.1 a rfl, nofun⟩
      | error error =>
        refine (maintains_settle error g h.1).mono fun r g h ↦ ?_
        cases r with
        | ok _ => exact ⟨h.1, by rintro _ ⟨⟩; nofun, nofun⟩
        | error _ => exact ⟨h.1, nofun, by rintro _ ⟨⟩; exact h.2.2 _ rfl⟩

theorem maintains_onBranch (branch : Branch) (hx : x.Maintains n P R) :
    (onBranch branch x).Maintains n P fun o ↦ ∀ a, o = some a → R a := by
  cases branch with
  | current => exact maintains_settling hx
  | forked id =>
    refine maintains_bind (maintains_visit id (maintains_settling hx)) fun o ho ↦ maintains_pure fun a ha ↦ ?_
    exact ho (some a) (Option.join_eq_some_iff.1 ha) a rfl

theorem maintains_onSide (branch : Option Branch) {x : Exec σ Unit} (hx : x.Maintains n P fun _ ↦ True) :
    (onSide branch x).Maintains n P fun _ ↦ True := by
  cases branch with
  | none => exact maintains_pure trivial
  | some branch => exact maintains_bind (maintains_onBranch branch hx) fun _ _ ↦ maintains_pure trivial

/-! ## Constraints -/

theorem maintains_toUnique (value : Expr) : (toUnique value : Exec σ Expr).Maintains n P fun _ ↦ True := by
  unfold toUnique
  split
  · exact maintains_pure trivial
  · refine maintains_bind (maintains_ask _) fun r _ ↦ ?_
    split
    · exact maintains_pure trivial
    · refine maintains_bind (maintains_lift (R := fun _ ↦ True) (ends_true_iff.2 fun _ _ ↦ trivial)) fun _ _ ↦
        maintains_bind (maintains_ask _) fun r _ ↦ ?_
      split <;> exact maintains_pure trivial

theorem maintains_knownArgument (argument : Expr) (name : String) :
    (knownArgument argument name : Exec σ Nat).Maintains n P fun _ ↦ True := by
  refine maintains_bind (maintains_toUnique argument) fun value _ ↦ ?_
  cases value.value? with
  | some value => exact maintains_pure trivial
  | none => exact maintains_fail nofun

theorem maintains_patchSeeds (condition : Expr) :
    (patchSeeds condition : Exec σ Unit).Maintains n P fun _ ↦ True := by
  refine maintains_bind maintains_seeds? fun seeds _ ↦ ?_
  split
  · dsimp only
    split
    · exact maintains_pure trivial
    · refine maintains_bind maintains_state fun s _ ↦ maintains_bind (maintains_query _) fun values _ ↦ ?_
      split
      · exact maintains_setSeeds _ _
      · exact maintains_pure trivial
  · exact maintains_pure trivial

theorem maintains_seedArm (arm : Option Branch) (seeds : List Seed) :
    (seedArm arm seeds : Exec σ _).Maintains n P fun out ↦ ∀ b, out = some b → arm = some b := by
  unfold seedArm
  dsimp only
  split
  · exact maintains_pure nofun
  · split
    · refine maintains_bind maintains_executor fun _ _ ↦ ?_
      split
      · exact maintains_bind (maintains_onBranch _ (maintains_terminateWith _ _)) fun _ _ ↦ maintains_pure nofun
      · exact maintains_pure fun _ h ↦ h
    · split
      · exact maintains_bind maintains_state fun _ _ ↦ maintains_bind (R := fun _ ↦ True) (maintains_pure trivial)
          fun _ _ ↦ maintains_bind (maintains_setSeeds _ _) fun _ _ ↦ maintains_pure fun _ h ↦ h
      · exact maintains_bind (R := fun _ ↦ True) (maintains_pure trivial) fun _ _ ↦
          maintains_bind (maintains_setSeeds _ _) fun _ _ ↦ maintains_pure fun _ h ↦ h

theorem maintains_seedArms (conditions : List Expr) (arms : List (Option Branch)) :
    (seedArms conditions arms : Exec σ _).Maintains n P fun l ↦ ∀ o ∈ l, ∀ b, o = some b → some b ∈ arms := by
  have harm (seed : Seed) : (armOf conditions seed : Exec σ Nat).Maintains n P fun _ ↦ True := by
    unfold armOf
    split
    · exact maintains_pure trivial
    · exact maintains_draw _
  refine maintains_bind maintains_seeds? fun seeds _ ↦ ?_
  split
  · exact maintains_pure fun o ho b hb ↦ hb ▸ ho
  · refine maintains_bind maintains_state fun _ _ ↦
      maintains_bind (maintains_modifyExecutor (fun _ ↦ rfl) fun _ ↦ rfl) fun _ _ ↦ ?_
    refine maintains_bind (maintains_mapM (T := fun _ ↦ True) fun seed _ ↦
      maintains_bind (harm seed) fun _ _ ↦ maintains_pure trivial) fun placed _ ↦ ?_
    refine maintains_mapM fun p hp ↦ (maintains_seedArm p.1 _).mono fun o ho b hb ↦ ?_
    exact ho b hb ▸ List.fst_mem_of_mem_zipIdx hp

variable [Carried n P]

theorem maintains_addConstraint (condition : Expr) :
    (addConstraint condition : Exec σ Unit).Maintains n P fun _ ↦ True := by
  refine maintains_bind (maintains_updateState fun s hs ↦ ?_) fun _ _ ↦ maintains_patchSeeds condition
  exact Checked.ends_bind (P := fun _ ↦ True) (ends_true_iff.2 fun _ _ ↦ trivial) fun _ _ ↦
    Checked.ends_pure (Carried.same n s _ hs ⟨rfl, rfl, rfl⟩ rfl)

theorem maintains_recordSide (side internal : Bool) :
    (recordSide side internal : Exec σ Unit).Maintains n P fun _ ↦ True := by
  cases internal with
  | true => exact maintains_pure trivial
  | false => exact maintains_updateState fun s hs ↦ Checked.ends_pure (Carried.same n s _ hs ⟨rfl, rfl, rfl⟩ rfl)

/-! ## Copies -/

theorem maintains_spawn : (spawn : Exec σ State).Maintains n P P := by
  intro f hf
  have hparent (s : State) (hs : f.state.SameWaits s) (hid : s.id = f.state.id) : P s :=
    Carried.same n _ s hf.state hs hid
  have hchild (s : State) (hs : f.state.SameWaits s) (hid : s.id = f.executor.nextStateId) : P s :=
    Carried.copy _ s hf.state hs (hid ▸ hf.next_le)
  have hnext : n ≤ f.executor.nextStateId + 1 := Nat.le_succ_of_le hf.next_le
  refine ends_bind_ok rfl ?_
  dsimp only
  split
  · refine ends_bind_ok rfl (ends_pure ⟨⟨hparent _ ⟨rfl, rfl, rfl⟩ rfl, hf.states, hnext⟩, ?_, nofun⟩)
    rintro _ ⟨⟩
    exact hchild _ ⟨rfl, rfl, rfl⟩ rfl
  · refine ends_bind (P := fun r h ↦ h = f ∧ ∀ error, r ≠ .error error) (ends_lift (ends_true_iff.2 fun _ _ ↦
      ⟨rfl, nofun⟩)) ?_ fun error _ h ↦ (h.2 error rfl).elim
    rintro ⟨⟨left, right⟩, tree⟩ _ ⟨rfl, -⟩
    refine ends_bind_ok rfl (ends_pure ⟨⟨hparent _ ⟨rfl, rfl, rfl⟩ rfl, hf.states, hnext⟩, ?_, nofun⟩)
    rintro _ ⟨⟩
    exact hchild _ ⟨rfl, rfl, rfl⟩ rfl

theorem maintains_duplicate (branch : Branch) : (duplicate branch : Exec σ Branch).Maintains n P fun _ ↦ True := by
  have hinsert (child : State) (hchild : P child) : (do
      insertState child
      pure (.forked child.id) : Exec σ Branch).Maintains n P fun _ ↦ True :=
    maintains_bind (maintains_insertState hchild) fun _ _ ↦ maintains_pure trivial
  unfold duplicate
  cases branch with
  | current => exact maintains_bind maintains_spawn hinsert
  | forked id =>
    refine maintains_bind (maintains_visit id maintains_spawn) fun o ho ↦ ?_
    cases o with
    | some child => exact maintains_bind (R := P) (maintains_pure (ho child rfl)) hinsert
    | none => exact maintains_bind maintains_spawn hinsert

theorem maintains_arms (count : Nat) : (arms count : Exec σ _).Maintains n P fun _ ↦ True := by
  refine maintains_bind maintains_forkInhibited fun _ _ ↦ ?_
  split
  · exact maintains_bind (maintains_draw _) fun _ _ ↦ maintains_pure trivial
  · refine maintains_bind (maintains_modifyExecutor (fun _ ↦ rfl) fun _ ↦ rfl) fun _ _ ↦ ?_
    refine maintains_bind (maintains_foldlM fun all i _ ↦ ?_) fun _ _ ↦ maintains_pure trivial
    exact maintains_bind (maintains_draw _) fun _ _ ↦ maintains_bind (maintains_duplicate _) fun _ _ ↦
      maintains_pure trivial

theorem maintains_branch (conditions : List Expr) : (branch conditions : Exec σ _).Maintains n P fun _ ↦ True := by
  unfold branch
  split
  · exact maintains_pure trivial
  · refine maintains_bind (maintains_arms _) fun _ _ ↦ ?_
    refine maintains_bind (maintains_seedArms conditions _) fun l _ ↦ ?_
    refine maintains_bind (maintains_forIn fun p _ ↦ ?_) fun _ _ ↦ maintains_pure trivial
    exact maintains_bind (maintains_onSide _ (maintains_addConstraint _)) fun _ _ ↦ maintains_pure rfl

theorem maintains_bothSides (condition : Expr) (internal : Bool) {child : State} (hchild : P child) : (do
      recordSide true internal
      addConstraint condition
      let (result, child) ← within child do
        recordSide false internal
        addConstraint condition.isZero
      MonadExcept.ofExcept result
      let maxDepth := (← executor).config.maxDepth
      if maxDepth ≠ 0 ∧ maxDepth ≤ (← state).depth then
        terminateEarly "max-depth exceeded"
        insertState child
        let _ ← visit child.id (terminateEarly "max-depth exceeded")
        return (none, none)
      insertState child
      return (some .current, some (.forked child.id)) : Exec σ Sides).Maintains n P fun _ ↦ True := by
  refine maintains_bind (maintains_recordSide true internal) fun _ _ ↦
    maintains_bind (maintains_addConstraint _) fun _ _ ↦ ?_
  refine maintains_bind (maintains_within hchild (maintains_bind (maintains_recordSide false internal) fun _ _ ↦
    maintains_addConstraint _)) fun p hp ↦ ?_
  refine maintains_bind (maintains_ofExcept hp.2) fun _ _ ↦ maintains_bind maintains_executor fun _ _ ↦
    maintains_bind maintains_state fun _ _ ↦ ?_
  split
  · refine maintains_bind (maintains_terminateWith _ _) fun _ _ ↦ ?_
    refine maintains_bind (maintains_insertState hp.1) fun _ _ ↦ ?_
    exact maintains_bind (maintains_visit _ (maintains_terminateWith _ _)) fun _ _ ↦ maintains_pure trivial
  · exact maintains_bind (maintains_insertState hp.1) fun _ _ ↦ maintains_pure trivial

theorem maintains_split (condition : Expr) (internal : Bool) :
    (split condition internal : Exec σ Sides).Maintains n P fun _ ↦ True := by
  refine maintains_bind (maintains_modifyExecutor (fun _ ↦ rfl) fun _ ↦ rfl) fun _ _ ↦ ?_
  refine maintains_bind maintains_spawn fun child hchild ↦ ?_
  refine maintains_bind maintains_state fun s _ ↦ maintains_bind maintains_seeds? fun seeds _ ↦ ?_
  have hboth := maintains_bothSides (n := n) (σ := σ) condition internal hchild
  dsimp only
  split
  · refine maintains_bind (maintains_modifyExecutor (fun _ ↦ rfl) fun _ ↦ rfl) fun _ _ ↦ ?_
    split
    · split
      · exact hboth
      · exact maintains_bind (maintains_setSeeds _ _) fun _ _ ↦ hboth
    · refine maintains_bind (maintains_setSeeds _ _) fun _ _ ↦ ?_
      split
      · exact hboth
      · exact maintains_bind (maintains_setSeeds _ _) fun _ _ ↦ hboth
  · exact hboth

theorem maintains_takeSide (condition : Expr) (side : Bool) :
    (takeSide condition side : Exec σ Validity).Maintains n P fun _ ↦ True :=
  maintains_bind (maintains_addConstraint _) fun _ _ ↦ maintains_pure trivial

theorem maintains_restrict (condition : Expr) (internal : Bool) (validity : Validity) :
    (restrict condition internal validity : Exec σ Validity).Maintains n P fun _ ↦ True := by
  refine maintains_bind maintains_executor fun _ _ ↦ maintains_bind maintains_seeds? fun seeds _ ↦ ?_
  split
  · refine maintains_bind maintains_executor fun _ _ ↦ ?_
    split
    · exact maintains_pure trivial
    · exact maintains_fail nofun
    · refine maintains_bind (maintains_modifyExecutor (fun _ ↦ rfl) fun _ ↦ rfl) fun _ _ ↦ ?_
      split
      · exact maintains_fail nofun
      · exact maintains_fail nofun
      · exact maintains_takeSide _ _
      · exact maintains_pure trivial
  · split
    · split
      · refine maintains_bind maintains_state fun _ _ ↦ ?_
        split
        · unfold followSeeds
          dsimp only
          split
          · exact maintains_takeSide _ _
          · exact maintains_pure trivial
        · exact maintains_pure trivial
      · refine maintains_bind maintains_forkInhibited fun _ _ ↦ ?_
        split
        · exact maintains_bind (maintains_draw _) fun _ _ ↦ maintains_takeSide _ _
        · exact maintains_pure trivial
    · exact maintains_pure trivial

theorem maintains_fork (condition : Expr) (internal : Bool) :
    (fork condition internal : Exec σ Sides).Maintains n P fun _ ↦ True := by
  refine maintains_bind (maintains_query _) fun _ _ ↦ maintains_bind (maintains_restrict _ _ _) fun v _ ↦ ?_
  cases v with
  | always => exact maintains_bind (maintains_recordSide _ _) fun _ _ ↦ maintains_pure trivial
  | never => exact maintains_bind (maintains_recordSide _ _) fun _ _ ↦ maintains_pure trivial
  | sometimes => exact maintains_split _ _

/-! ## Schedules -/

theorem maintains_switchTo (thread : ThreadId) (preempts : Bool) :
    (switchTo thread preempts : Exec σ Unit).Maintains n P fun _ ↦ True :=
  maintains_updateState fun s hs ↦
    (State.sameWaits_scheduleNext _ thread).mono fun s' h ↦
      Carried.same n s s' hs ⟨h.1.marks, h.1.nextThreadId_eq, h.1.waitLists_eq⟩ h.2

theorem ends_schedule (hf : f.Everywhere n P) (yields : Bool) :
    (schedule yields).Ends (fun _ ↦ f.state.enabledThreads ≠ []) f fun r g ↦ g.Everywhere n P ∧
      ((∃ error, r = .error error ∧ error.payload = .deadlock) ↔ f.state.enabledThreads = []) := by
  have hgoes {x : Exec σ Unit} (hx : x.Maintains n P fun _ ↦ True) (henabled : f.state.enabledThreads ≠ []) :
      x.Ends (fun _ ↦ f.state.enabledThreads ≠ []) f fun r g ↦ g.Everywhere n P ∧
        ((∃ error, r = .error error ∧ error.payload = .deadlock) ↔ f.state.enabledThreads = []) := by
    refine ((hx f hf).weaken fun _ _ ↦ henabled).mono fun _ _ h ↦ ⟨h.1, ?_⟩
    exact iff_of_false (fun ⟨error, herror, hpayload⟩ ↦ h.2.2 error herror hpayload) henabled
  refine ends_bind_ok rfl (ends_bind_ok rfl ?_)
  dsimp only
  split
  · rename_i hnil
    refine ends_bind (P := fun r g ↦ g = f ∧ r = .error ⟨f.executor.location, .deadlock⟩)
      (ends_fail ⟨rfl, rfl⟩) (fun _ _ h ↦ nomatch h.2) ?_
    rintro _ _ ⟨rfl, ⟨⟩⟩
    exact ⟨hf, fun _ ↦ by simpa using hnil, fun _ ↦ ⟨_, rfl, rfl⟩⟩
  · rename_i hne
    have hne : f.state.enabledThreads ≠ [] := by simpa using hne
    refine hgoes ?_ hne
    split
    · refine maintains_bind (maintains_branch _) fun _ _ ↦ maintains_bind (maintains_forIn fun p _ ↦ ?_) fun _ _ ↦
        maintains_pure trivial
      exact maintains_bind (maintains_onSide _ (maintains_switchTo _ _)) fun _ _ ↦ maintains_pure rfl
    · split
      · exact maintains_switchTo _ _
      · split
        · rename_i hnone
          exact (hne (State.nextThread_eq_none.1 hnone)).elim
        · exact maintains_switchTo _ _

theorem deadlock_iff (f : Focus σ) (yields : Bool) :
    (∃ error g, (schedule yields).run.run f = .ok (.error error, g) ∧ error.payload = .deadlock) ↔
      ∀ t ∈ f.state.threads, t.enabled = false := by
  have hends := (ends_schedule (n := 0) (P := fun _ ↦ True) (f := f) ⟨trivial, fun _ _ _ ↦ trivial, Nat.zero_le _⟩
    yields).with_run.run
  have hnone : f.state.enabledThreads = [] ↔ ∀ t ∈ f.state.threads, t.enabled = false := by
    simp [State.enabledThreads, List.filter_eq_nil_iff]
  rw [← hnone]
  refine ⟨fun ⟨error, g, hrun, hpayload⟩ ↦ ?_, fun hnil ↦ ?_⟩
  · exact (hends.of_eq hrun).1.2.1 ⟨error, rfl, hpayload⟩
  · obtain ⟨⟨r, g⟩, hrun⟩ : ∃ p, (schedule yields).run.run f = .ok p := by
      cases hrun : (schedule yields).run.run f with
      | ok p => exact ⟨p, rfl⟩
      | error fault =>
        have hfree := hends.weaken (G := (· ≠ fault)) fun _ hne ↦ (hne hnil).elim
        exact (hfree.ne_error hrun).elim
    obtain ⟨error, rfl, hpayload⟩ := (hends.of_eq hrun).1.2.2 hnil
    exact ⟨error, g, hrun, hpayload⟩

end Exec

end Symex
