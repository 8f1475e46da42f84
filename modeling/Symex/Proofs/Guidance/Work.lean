import Symex.Proofs.Feasibility.Branching
import Symex.Proofs.Guidance.States
import Symex.Proofs.Lineage.Results

namespace Symex

open Checked

variable {σ α β : Type}

/-- The contents that are answered are those of a solution, and nothing is answered only where there is
none. -/
structure Backend.Supplies (b : Backend σ) : Prop where
  contents : ∀ q arrays s values, q.Sensible Inputs.all →
    (b.initialValues q arrays s).1 = .ok (some values) →
      ∃ a, Inputs.all.Solves a q.constraints ∧ a.val q.expr = 0 ∧
        List.Forall₂ (fun A bytes ↦ ∀ i < A.size, bytes[i]? = a.byte? A i) arrays values
  nothing : ∀ q arrays s, q.Sensible Inputs.all → (b.initialValues q arrays s).1 = .ok none →
    ∀ a, Inputs.all.Solves a q.constraints → a.val q.expr ≠ 0

/-- What work starts from: the inputs that it does not tell apart, the objects that there are, and the first
name for a new state. -/
structure Outset where
  apart : Likeness
  object : MemoryObject → Prop
  next : StateId

/-- The state came out of the one that the work started from. -/
structure Outset.Spans (o : Outset) (s : State) : Prop where
  grounded : s.Grounded o.object
  like_le : s.like ≤ o.apart

/-- Every seed of the state satisfies its constraints. -/
def Executor.Leads (e : Executor σ) (s : State) : Prop :=
  ∀ seeds, e.seeds[s.id]? = some seeds → ∀ seed ∈ seeds, Inputs.all.Solves seed.assignment s.constraints

/-- The state has ended, or its seeds lead to it. -/
def Executor.Rests (e : Executor σ) (s : State) : Prop := s.id ∈ e.removed ∨ e.Leads s

/-- A live state under the name `id`. -/
structure Outset.Lives (o : Outset) (e : Executor σ) (id : StateId) (s : State) : Prop where
  id_eq : s.id = id
  lt : id < e.nextStateId
  grounded : s.Grounded fun _ ↦ True
  spans : o.next ≤ id → o.Spans s
  rests : e.Rests s

/-- The answers of the solver are right where there are any, and the seeds of all live states lead to
them. -/
structure Executor.Guided (o : Outset) (e : Executor σ) : Prop where
  exact : e.solver.backend.Exact Inputs.all True
  supplies : e.solver.backend.Supplies
  constants : ∀ c ∈ e.constants, c.WellFormed ∧ c.isConst
  next_le : o.next ≤ e.nextStateId
  states : ∀ (id : StateId) (s : State), e.states[id]? = some s → o.Lives e id s

/-- The machine and the state that it works on, with `held` laid aside. Only states that are there have seeds.
If `going` holds the state has not ended, and if `own` does its seeds lead to it unless it has. -/
structure Focus.Guided (o : Outset) (held : List State) (going own : Prop) (focus : Focus σ) : Prop where
  executor : focus.executor.Guided o
  apart : ∀ s ∈ focus.state :: held, s.id < focus.executor.nextStateId ∧
    focus.executor.states[s.id]? = none ∧ o.Spans s
  rests : ∀ s ∈ held, focus.executor.Rests s
  nodup : ((focus.state :: held).map (·.id)).Nodup
  keys : ∀ (id : StateId) (seeds : List Seed), focus.executor.seeds[id]? = some seeds →
    id ∈ (focus.state :: held).map (·.id) ∨ ∃ s, focus.executor.states[id]? = some s
  going : going → focus.Going
  own : own → focus.executor.Rests focus.state

variable {o : Outset} {held : List State} {going going' own own' : Prop} {focus : Focus σ}

/-! ## What guidance depends on -/

/-- Nothing changed that guidance depends on. -/
structure Executor.Aligns (e e' : Executor σ) : Prop where
  backend_eq : e'.solver.backend = e.solver.backend
  constants_eq : e'.constants = e.constants
  states_eq : e'.states = e.states
  next_eq : e'.nextStateId = e.nextStateId
  seeds_eq : e'.seeds = e.seeds
  removed_eq : e'.removed = e.removed

theorem Executor.Aligns.rests_iff {e e' : Executor σ} (h : e.Aligns e') (s : State) :
    e'.Rests s ↔ e.Rests s := by
  rw [Executor.Rests, Executor.Rests, Executor.Leads, Executor.Leads, h.removed_eq, h.seeds_eq]

theorem Executor.Guided.of_aligns {e e' : Executor σ} (he : e.Guided o) (h : e.Aligns e') : e'.Guided o where
  exact := h.backend_eq ▸ he.exact
  supplies := h.backend_eq ▸ he.supplies
  constants := h.constants_eq ▸ he.constants
  next_le := h.next_eq ▸ he.next_le
  states id s hs := by
    rw [h.states_eq] at hs
    obtain ⟨hid, hlt, hgrounded, hspans, hrests⟩ := he.states id s hs
    exact ⟨hid, h.next_eq ▸ hlt, hgrounded, hspans, (h.rests_iff s).2 hrests⟩

namespace Focus.Guided

theorem mono (hf : focus.Guided o held going own) (hgoing : going' → going) (hown : own' → own) :
    focus.Guided o held going' own' :=
  ⟨hf.executor, hf.apart, hf.rests, hf.nodup, hf.keys, fun h ↦ hf.going (hgoing h), fun h ↦ hf.own (hown h)⟩

theorem rest (hf : focus.Guided o held going own) : focus.Guided o held False own := hf.mono nofun id

theorem aligns {e : Executor σ} (hf : focus.Guided o held going own) (h : focus.executor.Aligns e) :
    ({ focus with executor := e } : Focus σ).Guided o held going own where
  executor := hf.executor.of_aligns h
  apart s hs := by
    rw [h.next_eq, h.states_eq]
    exact hf.apart s hs
  rests s hs := (h.rests_iff s).2 (hf.rests s hs)
  nodup := hf.nodup
  keys := by
    rw [h.seeds_eq, h.states_eq]
    exact hf.keys
  going hg := by
    rw [Focus.Going, h.removed_eq]
    exact hf.going hg
  own ho := (h.rests_iff _).2 (hf.own ho)

theorem withSolver {solver : Solver σ} (hf : focus.Guided o held going own)
    (h : focus.executor.solver.Same solver) : (focus.withSolver solver).Guided o held going own :=
  hf.aligns ⟨h.backend_eq, rfl, rfl, rfl, rfl, rfl⟩

theorem spans (hf : focus.Guided o held going own) : o.Spans focus.state :=
  (hf.apart _ List.mem_cons_self).2.2

theorem withState {s : State} (hf : focus.Guided o held going own)
    (hs : focus.state.Steady o.object s) :
    ({ focus with state := s } : Focus σ).Guided o held going own where
  executor := hf.executor
  apart := by
    have hheld := List.forall_mem_cons.1 hf.apart
    refine List.forall_mem_cons.2 ⟨?_, hheld.2⟩
    rw [hs.id_eq]
    exact ⟨hheld.1.1, hheld.1.2.1, hs.grounded, hs.like_eq ▸ hheld.1.2.2.like_le⟩
  rests := hf.rests
  nodup := by
    rw [List.map_cons, hs.id_eq]
    exact hf.nodup
  keys := by
    rw [List.map_cons, hs.id_eq]
    exact hf.keys
  going hg := by
    rw [Focus.Going, hs.id_eq]
    exact hf.going hg
  own ho := by
    rw [Executor.Rests, Executor.Leads, hs.id_eq, hs.constraints_eq]
    exact hf.own ho

theorem terminate (hf : focus.Guided o held going own) :
    ({ focus with executor := { focus.executor with
      removed := focus.executor.removed ++ [focus.state.id] } } : Focus σ).Guided o held False own' where
  executor :=
    ⟨hf.executor.exact, hf.executor.supplies, hf.executor.constants, hf.executor.next_le, fun id s hs ↦
      have h := hf.executor.states id s hs
      ⟨h.id_eq, h.lt, h.grounded, h.spans, h.rests.imp_left fun h ↦ List.mem_append_left _ h⟩⟩
  apart := hf.apart
  rests s hs := (hf.rests s hs).imp_left fun h ↦ List.mem_append_left _ h
  nodup := hf.nodup
  keys := hf.keys
  going := nofun
  own _ := .inl (List.mem_append_right _ (List.mem_singleton_self _))

theorem sound (hf : focus.Guided o held going own) : focus.Sound Inputs.all where
  executor :=
    ⟨fun _ ↦ hf.executor.exact, fun c hc ↦ (hf.executor.constants c hc).1, fun id s hs ↦
      (hf.executor.states id s hs).grounded.sound⟩
  state := hf.spans.grounded.sound

end Focus.Guided

/-! ## Rules -/

namespace Exec

/-- From here the work keeps the machine guided, and `Q` holds of its result and of what becomes of the focus.
An error that ends the state alone may leave it with seeds that do not lead to it. -/
def GuidesAt (o : Outset) (held : List State) (x : Exec σ α) (focus : Focus σ) (going : Prop)
    (Q : α → Focus σ → Prop) : Prop :=
  x.Ends (fun _ ↦ True) focus fun r f ↦ f.state.id = focus.state.id ∧
    (∀ a, r = .ok a → f.Guided o held going True ∧ Q a f) ∧
    ∀ e, r = .error e → f.Guided o held False (e.payload.isFatal = true)

/-- If `going` holds of the state that is worked on, the work keeps the machine guided, and `R` holds of its
result. The state goes on after it if `going'` holds. -/
def Guides (o : Outset) (going : Prop) (x : Exec σ α) (going' : Prop) (R : α → Prop) : Prop :=
  ∀ held focus, focus.Guided o held going True → x.GuidesAt o held focus going' fun a _ ↦ R a

variable {x : Exec σ α} {k : α → Exec σ β} {a : α} {R R' : α → Prop} {T : β → Prop} {p q r : Prop}
  {Q Q' : α → Focus σ → Prop} {S : β → Focus σ → Prop}

theorem guidesAt_pure (hf : focus.Guided o held p True) (h : Q a focus) :
    (pure a : Exec σ α).GuidesAt o held focus p Q :=
  ends_pure ⟨rfl, by rintro _ ⟨⟩; exact ⟨hf, h⟩, nofun⟩

theorem guidesAt_throw (e : PathError) (hf : focus.Guided o held p True) :
    (throw e : Exec σ α).GuidesAt o held focus q Q :=
  ends_throw ⟨rfl, nofun, by rintro _ ⟨⟩; exact hf.mono nofun fun _ ↦ trivial⟩

theorem guidesAt_fail (e : ExecError) (hf : focus.Guided o held p True) :
    (fail e : Exec σ α).GuidesAt o held focus q Q :=
  ends_fail ⟨rfl, nofun, by rintro _ ⟨⟩; exact hf.mono nofun fun _ ↦ trivial⟩

theorem guidesAt_bind (hx : x.GuidesAt o held focus p Q)
    (hk : ∀ a f, f.Guided o held p True → Q a f → (k a).GuidesAt o held f q S) :
    (x >>= k).GuidesAt o held focus q S :=
  ends_bind hx (fun a f h ↦ Ends.mono (hk a f (h.2.1 a rfl).1 (h.2.1 a rfl).2) fun _ _ h' ↦
    ⟨h'.1.trans h.1, h'.2⟩) fun _ _ h ↦ ⟨h.1, nofun, by rintro _ ⟨⟩; exact h.2.2 _ rfl⟩

theorem GuidesAt.mono (hx : x.GuidesAt o held focus p Q) (hq : q → p) (h : ∀ a f, Q a f → Q' a f) :
    x.GuidesAt o held focus q Q' :=
  Ends.mono hx fun _ f hr ↦ ⟨hr.1, fun a ha ↦ ⟨(hr.2.1 a ha).1.mono hq id, h a f (hr.2.1 a ha).2⟩, hr.2.2⟩

theorem guidesAt_lift {c : Checked α} {P : α → Prop} (h : Meets c P) (hf : focus.Guided o held p True) :
    (liftM c : Exec σ α).GuidesAt o held focus p fun a f ↦ f = focus ∧ P a :=
  ends_lift (h.mono fun _ ha ↦ ⟨rfl, by rintro _ ⟨⟩; exact ⟨hf, rfl, ha⟩, nofun⟩)

theorem guidesAt_updateState {f : State → Checked State} {P : State → Prop}
    (h : Meets (f focus.state) fun s ↦ focus.state.Steady o.object s ∧ P s)
    (hf : focus.Guided o held p True) :
    (updateState f : Exec σ Unit).GuidesAt o held focus p fun _ f ↦
      ∃ s, f = { focus with state := s } ∧ P s :=
  ends_updateState (h.mono fun s hs ↦
    ⟨hs.1.id_eq, fun _ _ ↦ ⟨hf.withState hs.1, s, rfl, hs.2⟩, nofun⟩)

theorem guidesAt_modifyExecutor {f : Executor σ → Executor σ}
    (h : focus.executor.Aligns (f focus.executor)) (hf : focus.Guided o held p True) :
    (modifyExecutor f).GuidesAt o held focus p fun _ g ↦ g = { focus with executor := f focus.executor } :=
  ends_modifyExecutor ⟨rfl, fun _ _ ↦ ⟨hf.aligns h, rfl⟩, nofun⟩

theorem guides_pure (h : R a) : (pure a : Exec σ α).Guides o p p R := fun _ _ hf ↦ guidesAt_pure hf h

theorem guides_fail (e : ExecError) : (fail e : Exec σ α).Guides o p q R := fun _ _ hf ↦ guidesAt_fail e hf

theorem guides_bind (hx : x.Guides o p q R) (hk : ∀ a, R a → (k a).Guides o q r T) :
    (x >>= k).Guides o p r T := fun held focus hf ↦
  guidesAt_bind (hx held focus hf) fun a f hf h ↦ hk a h held f hf

theorem guides_fail_bind (e : ExecError) : (fail e >>= k).Guides o p q T :=
  guides_bind (q := p) (guides_fail e) fun _ (h : False) ↦ h.elim

theorem Guides.relax {p' q' : Prop} (hx : x.Guides o p q R) (hp : p → p') (hq : q' → q) :
    x.Guides o p' q' R :=
  fun held focus hf ↦ (hx held focus (hf.mono hp id)).mono hq fun _ _ ↦ id

theorem guides_lift {c : Checked α} (h : Meets c R) : (liftM c : Exec σ α).Guides o p p R := fun _ _ hf ↦
  (guidesAt_lift h hf).mono id fun _ _ h ↦ h.2

theorem guides_lift_any (c : Checked α) : (liftM c : Exec σ α).Guides o p p fun _ ↦ True :=
  guides_lift (ends_true_iff.2 fun _ _ ↦ trivial)

theorem guides_forIn {γ : Type} {f : γ → PUnit → Exec σ (ForInStep PUnit)} {l : List γ}
    (hf : ∀ x ∈ l, (f x ⟨⟩).Guides o p p (· = .yield ⟨⟩)) :
    (forIn l ⟨⟩ f : Exec σ PUnit).Guides o p p fun _ ↦ True := by
  induction l with
  | nil => exact guides_pure trivial
  | cons x l ih =>
    rw [List.forall_mem_cons] at hf
    rw [List.forIn_cons]
    refine guides_bind hf.1 ?_
    rintro _ rfl
    exact ih hf.2

theorem guides_mapM {γ : Type} {f : γ → Exec σ β} {l : List γ} (hf : ∀ x ∈ l, (f x).Guides o p p T) :
    (l.mapM f).Guides o p p fun r ↦ ∀ b ∈ r, T b := by
  induction l with
  | nil => exact guides_pure (by simp)
  | cons x l ih =>
    rw [List.forall_mem_cons] at hf
    rw [List.mapM_cons]
    exact guides_bind hf.1 fun b hb ↦ guides_bind (ih hf.2) fun r hr ↦
      guides_pure (List.forall_mem_cons.2 ⟨hb, hr⟩)

/-! ## The focus -/

theorem guides_executor : (executor : Exec σ _).Guides o p p fun e ↦
    ∀ c ∈ e.constants, c.WellFormed ∧ c.isConst := fun _ _ hf ↦
  ends_executor ⟨rfl, by rintro _ ⟨⟩; exact ⟨hf, hf.executor.constants⟩, nofun⟩

theorem guides_state : (state : Exec σ _).Guides o p p o.Spans := fun _ _ hf ↦
  ends_state ⟨rfl, by rintro _ ⟨⟩; exact ⟨hf, hf.spans⟩, nofun⟩

theorem guides_modifyExecutor {f : Executor σ → Executor σ} (h : ∀ e : Executor σ, e.Aligns (f e)) :
    (modifyExecutor f).Guides o p p fun _ ↦ True := fun _ focus hf ↦
  (guidesAt_modifyExecutor (h focus.executor) hf).mono id fun _ _ _ ↦ trivial

theorem guides_updateState {f : State → Checked State}
    (h : ∀ s, o.Spans s → Meets (f s) (s.Steady o.object)) :
    (updateState f : Exec σ Unit).Guides o p p fun _ ↦ True := fun _ focus hf ↦
  (guidesAt_updateState (P := fun _ ↦ True) ((h focus.state hf.spans).mono fun _ hs ↦ ⟨hs, trivial⟩) hf).mono
    id fun _ _ _ ↦ trivial

theorem guides_draw (f : Rng → α × Rng) : (draw f : Exec σ α).Guides o p p fun _ ↦ True := fun _ _ hf ↦
  ends_draw ⟨rfl, fun _ _ ↦ ⟨hf.aligns ⟨rfl, rfl, rfl, rfl, rfl, rfl⟩, trivial⟩, nofun⟩

variable {e : Expr}

theorem guides_write (r : Register) (he : e.Determined o.apart) :
    (write r e : Exec σ Unit).Guides o p p fun _ ↦ True :=
  guides_updateState fun _ hs ↦ hs.grounded.meets_write r (he.mono hs.like_le)

theorem guides_writeResult (r : Option Register) (he : e.Determined o.apart) :
    (writeResult r e : Exec σ Unit).Guides o p p fun _ ↦ True := by
  cases r with
  | none => exact guides_pure trivial
  | some r => exact guides_write r he

/-! ## Questions -/

variable {question : ConstraintSet → Ask σ α}

theorem guidesAt_ask (hq : (question focus.state.constraints).Answers Inputs.all True R)
    (hf : focus.Guided o held p True) : (ask question).GuidesAt o held focus p fun r f ↦
      (∃ solver, f = focus.withSolver solver) ∧ ∀ a, r = .ok a → R a :=
  Ends.weaken (F := fun _ ↦ True) (ends_ask hq hf.executor.exact fun r solver hsame hr ↦ ⟨rfl, by
    rintro _ ⟨⟩
    exact ⟨hf.withSolver hsame, ⟨solver, rfl⟩, by rintro a rfl; exact hr⟩, nofun⟩) fun _ ↦ id

theorem guidesAt_query (hq : (question focus.state.constraints).Answers Inputs.all True R)
    (hf : focus.Guided o held p True) : (query question).GuidesAt o held focus p fun a f ↦
      (∃ solver, f = focus.withSolver solver) ∧ R a := by
  refine guidesAt_bind (guidesAt_ask hq hf) fun r f hf h ↦ ?_
  cases r with
  | ok a => exact guidesAt_pure hf ⟨h.1, h.2 a rfl⟩
  | error e => exact guidesAt_fail _ hf

theorem guides_ask (hq : ∀ c : ConstraintSet, c.Valid → Inputs.all.Satisfiable c →
    (question c).Answers Inputs.all True R) :
    (ask question).Guides o p p fun r ↦ ∀ a, r = .ok a → R a := fun _ _ hf ↦
  (guidesAt_ask (hq _ hf.spans.grounded.valid hf.spans.grounded.satisfiable) hf).mono id fun _ _ h ↦ h.2

theorem guides_query (hq : ∀ c : ConstraintSet, c.Valid → Inputs.all.Satisfiable c →
    (question c).Answers Inputs.all True R) : (query question).Guides o p p R := fun _ _ hf ↦
  (guidesAt_query (hq _ hf.spans.grounded.valid hf.spans.grounded.satisfiable) hf).mono id fun _ _ h ↦ h.2

theorem guides_mustBeTrue (he : e.WellFormed) :
    (query (Solver.mustBeTrue · e) : Exec σ Bool).Guides o p p fun _ ↦ True :=
  guides_query fun _ hc hsat ↦ (Solver.answers_mustBeTrue hc hsat he).mono fun _ _ ↦ trivial

theorem guides_mayBeTrue (he : e.WellFormed) :
    (query (Solver.mayBeTrue · e) : Exec σ Bool).Guides o p p fun _ ↦ True :=
  guides_query fun _ hc hsat ↦ (Solver.answers_mayBeTrue hc hsat he).mono fun _ _ ↦ trivial

theorem guides_value (he : e.WellFormed) : (query (Solver.value · e) : Exec σ Expr).Guides o p p fun v ↦
    v.Determined o.apart ∧ v.width = e.width := fun held focus hf ↦
  have hquery : (query (Solver.value · e) : Exec σ Expr).Guides o p p
      (fun v ↦ v.isConst = true) := guides_query fun _ hc hsat ↦
    (Solver.answers_value hc hsat he).mono fun _ h ↦ h.isConst
  (Ends.and (hquery held focus hf) (keeps_value (I := Inputs.all) he focus hf.sound)).mono fun _ _ h ↦
    ⟨h.1.1, fun v hv ↦ ⟨(h.1.2.1 v hv).1,
      Expr.determined_of_isConst (h.2.2 v hv).1 (h.1.2.1 v hv).2, (h.2.2 v hv).2⟩, h.1.2.2⟩

theorem guides_addressInfo {address : Expr} (haddress : address.WellFormed) :
    (addressInfo address : Exec σ String).Guides o p p fun _ ↦ True := by
  have hnear (value : Nat) : (addressInfo.neighbours value : Exec σ String).Guides o p p fun _ ↦ True :=
    guides_bind guides_state fun _ _ ↦ guides_pure trivial
  unfold addressInfo
  dsimp only
  split
  · exact guides_bind (hnear _) fun _ _ ↦ guides_pure trivial
  · refine guides_bind (guides_ask (R := fun _ ↦ True) fun c hc hsat ↦
      (Solver.answers_value hc hsat haddress).mono fun _ _ ↦ trivial) fun r _ ↦ ?_
    split
    · exact guides_pure trivial
    · refine guides_bind (guides_ask (R := fun _ ↦ True) fun c hc hsat ↦
        (Solver.answers_range hc hsat haddress).mono fun _ _ ↦ trivial) fun r _ ↦ ?_
      split <;>
        exact guides_bind (R := fun _ ↦ True) (guides_pure trivial) fun _ _ ↦
          guides_bind (hnear _) fun _ _ ↦ guides_pure trivial

/-! ## Outcomes -/

/-- Whatever is known of the seeds of the state is still known after the work. -/
def Carries (o : Outset) (x : Exec σ α) : Prop :=
  ∀ held own focus, focus.Guided o held False own →
    x.Ends (fun _ ↦ True) focus fun _ f ↦ f.state.id = focus.state.id ∧ f.Guided o held False own

theorem carries_pure (a : α) : (pure a : Exec σ α).Carries o := fun _ _ _ hf ↦ ends_pure ⟨rfl, hf⟩

theorem carries_throw (e : PathError) : (throw e : Exec σ α).Carries o := fun _ _ _ hf ↦ ends_throw ⟨rfl, hf⟩

theorem carries_bind (hx : x.Carries o) (hk : ∀ a, (k a).Carries o) : (x >>= k).Carries o :=
  fun held own focus hf ↦ ends_bind (hx held own focus hf) (fun a f h ↦
    Ends.mono (hk a held own f h.2) fun _ _ h' ↦ ⟨h'.1.trans h.1, h'.2⟩) fun _ _ h ↦ h

theorem carries_lift (c : Checked α) : (liftM c : Exec σ α).Carries o := fun _ _ _ hf ↦
  ends_lift (ends_true_iff.2 fun _ _ ↦ ⟨rfl, hf⟩)

theorem carries_state : (state : Exec σ _).Carries o := fun _ _ _ hf ↦ ends_state ⟨rfl, hf⟩

theorem carries_executor : (executor : Exec σ _).Carries o := fun _ _ _ hf ↦ ends_executor ⟨rfl, hf⟩

theorem carries_isTerminated : (isTerminated : Exec σ Bool).Carries o := fun _ _ _ hf ↦
  ends_isTerminated ⟨rfl, hf⟩

theorem carries_modifyExecutor {f : Executor σ → Executor σ} (h : ∀ e : Executor σ, e.Aligns (f e)) :
    (modifyExecutor f).Carries o := fun _ _ _ hf ↦ ends_modifyExecutor ⟨rfl, hf.aligns (h _)⟩

theorem carries_terminate : (terminate : Exec σ Unit).Carries o := by
  refine carries_bind carries_isTerminated fun _ ↦ ?_
  split
  · exact carries_pure _
  · exact fun _ _ _ hf ↦ ends_bind_ok rfl (ends_modifyExecutor ⟨rfl, hf.terminate⟩)

theorem carries_emit (termination : Termination) (details : Option String) :
    (emit termination details : Exec σ Unit).Carries o := by
  have hsolution : (solution : Exec σ Solution).Carries o := by
    refine carries_bind carries_state fun s ↦ carries_bind (fun held own focus hf ↦ ?_) fun r ↦ ?_
    · have hs := hf.spans.grounded
      exact ends_ask (Solver.answers_initialValues hs.valid hs.satisfiable s.arrays) hf.executor.exact
        fun r solver hsame _ ↦ ⟨rfl, hf.withSolver hsame⟩
    · split <;> exact carries_pure _
  exact carries_bind hsolution fun _ ↦ carries_bind carries_state fun _ ↦
    carries_bind carries_executor fun _ ↦ carries_bind (carries_lift _) fun _ ↦
      carries_modifyExecutor fun _ ↦ ⟨rfl, rfl, rfl, rfl, rfl, rfl⟩

theorem carries_terminateWith (termination : Termination) (details : Option String) :
    (terminateWith termination details : Exec σ Unit).Carries o := by
  refine carries_bind carries_isTerminated fun _ ↦ ?_
  split
  · exact carries_pure _
  · exact carries_bind (carries_emit _ _) fun _ ↦ carries_terminate

theorem carries_terminateOnError (error : PathError) (details : Option String) :
    (terminateOnError error details : Exec σ Unit).Carries o := by
  have hend : (do
      emit (.error error.payload.kind error.payload.message) details
      modifyExecutor fun e ↦ { e with errors := e.errors ++ [error] }
      terminate : Exec σ Unit).Carries o :=
    carries_bind (carries_emit _ _) fun _ ↦
      carries_bind (carries_modifyExecutor fun _ ↦ ⟨rfl, rfl, rfl, rfl, rfl, rfl⟩) fun _ ↦ carries_terminate
  refine carries_bind carries_isTerminated fun _ ↦ ?_
  split
  · exact carries_pure _
  · refine carries_bind carries_executor fun _ ↦ ?_
    dsimp only
    split
    · split
      · exact hend
      · exact carries_terminate
    · exact carries_bind (carries_modifyExecutor fun _ ↦ ⟨rfl, rfl, rfl, rfl, rfl, rfl⟩) fun _ ↦ hend

theorem carries_settle (error : PathError) : (settle error : Exec σ Unit).Carries o := by
  unfold settle
  split
  · exact carries_throw error
  · split
    · exact carries_terminateWith _ _
    · exact carries_terminateOnError _ _

theorem Carries.guides (hx : x.Carries o) (R : α → Prop) (hR : ∀ a, R a) : x.Guides o p False R :=
  fun held focus hf ↦ Ends.mono (hx held True focus hf.rest) fun _ _ h ↦
    ⟨h.1, fun a _ ↦ ⟨h.2, hR a⟩, fun _ _ ↦ h.2.mono id fun _ ↦ trivial⟩

theorem guides_terminateEarly (reason : String) :
    (terminateEarly reason : Exec σ Unit).Guides o p False fun _ ↦ True :=
  (carries_terminateWith _ _).guides _ fun _ ↦ trivial

theorem guides_terminateOnExit : (terminateOnExit : Exec σ Unit).Guides o p False fun _ ↦ True :=
  (carries_terminateWith _ _).guides _ fun _ ↦ trivial

theorem guides_terminateOnError (error : PathError) (details : Option String) :
    (terminateOnError error details : Exec σ Unit).Guides o p False fun _ ↦ True :=
  (carries_terminateOnError error details).guides _ fun _ ↦ trivial

/-! ## Other states -/

/-- However the work ends, the state has ended or its seeds lead to it. -/
def FirmAt (o : Outset) (held : List State) (x : Exec σ α) (focus : Focus σ) (Q : α → Focus σ → Prop) : Prop :=
  x.Ends (fun _ ↦ True) focus fun r f ↦ f.state.id = focus.state.id ∧ f.Guided o held False True ∧
    ∀ a, r = .ok a → Q a f

theorem FirmAt.guidesAt (hx : x.FirmAt o held focus Q) : x.GuidesAt o held focus False Q :=
  Ends.mono hx fun _ _ h ↦ ⟨h.1, fun a ha ↦ ⟨h.2.1, h.2.2 a ha⟩, fun _ _ ↦ h.2.1.mono id fun _ ↦ trivial⟩

theorem Carries.firmAt (hx : x.Carries o) (hf : focus.Guided o held p True) :
    x.FirmAt o held focus fun _ _ ↦ True :=
  Ends.mono (hx held True focus hf.rest) fun _ _ h ↦ ⟨h.1, h.2, fun _ _ ↦ trivial⟩

theorem ends_settle_guided {error : PathError} (hf : focus.Guided o held False (error.payload.isFatal = true)) :
    (settle error : Exec σ Unit).Ends (fun _ ↦ True) focus fun _ f ↦
      f.state.id = focus.state.id ∧ f.Guided o held False True := by
  by_cases he : error.payload.isFatal = true
  · exact carries_settle error held True focus (hf.mono id fun _ ↦ he)
  · have hquits : (settle error : Exec σ Unit).Quits := quits_settle (Bool.eq_false_iff.2 he)
    refine (Ends.and (carries_settle error held False focus (hf.mono id False.elim)) (hquits focus)).mono fun _ f h ↦ ?_
    obtain ⟨⟨hid, hf⟩, -, -, hended⟩ := h
    have hremoved : f.state.id ∈ f.executor.removed := Decidable.of_not_not hended
    exact ⟨hid, hf.executor, hf.apart, hf.rests, hf.nodup, hf.keys, False.elim, fun _ ↦ .inl hremoved⟩

theorem firmAt_settling (hf : focus.Guided o held p True)
    (hx : focus.Guided o held True True → x.GuidesAt o held focus q Q) :
    (settling x).FirmAt o held focus fun r f ↦ ∀ a, r = some a → Q a f := by
  refine ends_settling (fun _ ↦ ⟨rfl, hf.rest, fun _ hr _ ha ↦ by cases hr; cases ha⟩) fun hgoing ↦ ?_
  have hf' : focus.Guided o held True True :=
    ⟨hf.executor, hf.apart, hf.rests, hf.nodup, hf.keys, fun _ ↦ by simpa [Focus.Going] using hgoing, hf.own⟩
  refine Ends.mono (hx hf') fun r f h ↦ ?_
  cases r with
  | ok a => exact ⟨h.1, (h.2.1 a rfl).1.rest, fun _ hr _ ha ↦ by cases hr; cases ha; exact (h.2.1 a rfl).2⟩
  | error e =>
    refine (ends_settle_guided (h.2.2 e rfl)).mono fun r f' h' ↦ ?_
    cases r with
    | ok _ => exact ⟨h'.1.trans h.1, h'.2, fun _ hr _ ha ↦ by cases hr; cases ha⟩
    | error e' => exact ⟨h'.1.trans h.1, h'.2, fun _ hr ↦ by cases hr⟩

end Exec

/-! ## Places -/

/-- A state at the place came up after the work started, or is the one that is worked on. -/
def Outset.Fresh (o : Outset) : Branch → Prop
  | .current => True
  | .forked id => o.next ≤ id

theorem Focus.Guided.enter {id : StateId} {s : State} (hf : focus.Guided o held going True)
    (hid : o.next ≤ id) (hs : focus.executor.states[id]? = some s) :
    Focus.Guided o (focus.state :: held) False True
      ⟨{ focus.executor with states := focus.executor.states.erase id }, s⟩ := by
  have hlive := hf.executor.states id s hs
  have hne : ∀ t ∈ focus.state :: held, t.id ≠ s.id := by
    intro t ht heq
    have := (hf.apart t ht).2.1
    rw [heq, hlive.id_eq, hs] at this
    cases this
  have herase : ∀ (id' : StateId), focus.executor.states[id']? = none →
      (focus.executor.states.erase id)[id']? = none := by
    intro id' h
    rw [getElem?_erase_state]
    split
    · rfl
    · exact h
  refine ⟨⟨hf.executor.exact, hf.executor.supplies, hf.executor.constants, hf.executor.next_le, fun id' t ht ↦ ?_⟩,
    List.forall_mem_cons.2 ⟨?_, fun t ht ↦ ?_⟩, List.forall_mem_cons.2 ⟨hf.own trivial, hf.rests⟩, ?_,
    fun id' l hl ↦ ?_, nofun, fun _ ↦ hlive.rests⟩
  · rw [getElem?_erase_state] at ht
    split at ht
    · cases ht
    · have h := hf.executor.states id' t ht
      exact ⟨h.id_eq, h.lt, h.grounded, h.spans, h.rests⟩
  · refine ⟨hlive.id_eq ▸ hlive.lt, ?_, hlive.spans hid⟩
    rw [hlive.id_eq]
    exact Std.TreeMap.getElem?_erase_self
  · exact ⟨(hf.apart t ht).1, herase _ (hf.apart t ht).2.1, (hf.apart t ht).2.2⟩
  · rw [List.map_cons, List.nodup_cons]
    refine ⟨fun hmem ↦ ?_, hf.nodup⟩
    obtain ⟨t, ht, heq⟩ := List.mem_map.1 hmem
    exact hne t ht heq
  · by_cases hid' : id = id'
    · exact .inl (hid' ▸ hlive.id_eq ▸ List.mem_cons_self)
    · refine (hf.keys id' l hl).imp (List.mem_cons_of_mem _) fun ⟨t, ht⟩ ↦ ⟨t, ?_⟩
      rwa [getElem?_erase_state, if_neg hid']

theorem Focus.Guided.insert {s : State} (hf : focus.Guided o (s :: held) going True) :
    ({ focus with executor := { focus.executor with
      states := focus.executor.states.insert s.id s } } : Focus σ).Guided o held going True := by
  have hown := hf.apart s (List.mem_cons_of_mem _ List.mem_cons_self)
  have hrest := List.forall_mem_cons.1 hf.rests
  have hperm : (focus.state :: s :: held).Perm (s :: focus.state :: held) := .swap ..
  have hnodup := (hperm.map (·.id)).nodup_iff.1 hf.nodup
  rw [List.map_cons, List.nodup_cons] at hnodup
  refine ⟨⟨hf.executor.exact, hf.executor.supplies, hf.executor.constants, hf.executor.next_le, fun id t ht ↦ ?_⟩,
    fun t ht ↦ ?_, hrest.2, hnodup.2, fun id l hl ↦ ?_, hf.going, hf.own⟩
  · rw [getElem?_insert_state] at ht
    split at ht
    · rename_i hid
      obtain rfl := Option.some.inj ht
      exact ⟨hid, hid ▸ hown.1, hown.2.2.grounded.forget, fun _ ↦ hown.2.2, hrest.1⟩
    · have h := hf.executor.states id t ht
      exact ⟨h.id_eq, h.lt, h.grounded, h.spans, h.rests⟩
  · have h := hf.apart t (hperm.mem_iff.2 (List.mem_cons_of_mem _ ht))
    refine ⟨h.1, ?_, h.2.2⟩
    change (focus.executor.states.insert s.id s)[t.id]? = none
    rw [getElem?_insert_state, if_neg fun heq : s.id = t.id ↦ hnodup.1 (heq ▸ List.mem_map_of_mem ht)]
    exact h.2.1
  · change _ ∨ ∃ t, (focus.executor.states.insert s.id s)[id]? = some t
    rw [getElem?_insert_state]
    split
    · exact .inr ⟨_, rfl⟩
    · rename_i hid
      refine (hf.keys id l hl).imp_left fun hmem ↦ ?_
      exact (List.mem_cons.1 ((hperm.map (·.id)).mem_iff.1 hmem)).resolve_left fun heq ↦ hid heq.symm

theorem Focus.Guided.swap {s : State} (hf : focus.Guided o (s :: held) going True) :
    ({ focus with state := s } : Focus σ).Guided o (focus.state :: held) False True where
  executor := hf.executor
  apart t ht := hf.apart t ((List.Perm.swap ..).mem_iff.1 ht)
  rests := List.forall_mem_cons.2 ⟨hf.own trivial, (List.forall_mem_cons.1 hf.rests).2⟩
  nodup := ((List.Perm.swap ..).map State.id).nodup_iff.1 hf.nodup
  keys id l hl := (hf.keys id l hl).imp_left ((List.Perm.swap ..).map State.id).mem_iff.1
  going := False.elim
  own _ := (List.forall_mem_cons.1 hf.rests).1

theorem Focus.Guided.perm {held' : List State} (hf : focus.Guided o held going own) (h : held.Perm held') :
    focus.Guided o held' going own where
  executor := hf.executor
  apart s hs := hf.apart s ((h.cons _).mem_iff.2 hs)
  rests s hs := hf.rests s (h.mem_iff.2 hs)
  nodup := ((h.cons _).map (·.id)).nodup_iff.1 hf.nodup
  keys id l hl := (hf.keys id l hl).imp_left ((h.cons _).map (·.id)).mem_iff.1
  going := hf.going
  own := hf.own

theorem Focus.Guided.leave {s : State} (hf : focus.Guided o (s :: held) False True)
    (hgoing : going → s.id ∉ focus.executor.removed) :
    Focus.Guided o held going True ⟨{ focus.executor with
      states := focus.executor.states.insert focus.state.id focus.state }, s⟩ :=
  have h := hf.swap.insert
  ⟨h.executor, h.apart, h.rests, h.nodup, h.keys, hgoing, h.own⟩

namespace Exec

variable {x : Exec σ α} {R : α → Prop} {p q : Prop} {Q : α → Focus σ → Prop} {b : Branch} {id : StateId}

theorem firmAt_visit (hid : o.next ≤ id) (hf : focus.Guided o held p True)
    (hx : ∀ held f, f.Guided o held False True → focus.stateAt? (.forked id) = some f.state →
      x.FirmAt o held f Q) :
    (visit id x).FirmAt o held focus fun r f ↦ ∀ a, r = some a →
      ∃ g, Q a g ∧ f.stateAt? (.forked id) = some g.state := by
  refine ends_visit (fun _ ↦ ⟨rfl, hf.rest, by rintro _ ⟨⟩; nofun⟩) fun s hs ↦ ?_
  have hname : s.id = id := (hf.executor.states id s hs).id_eq
  refine Ends.mono (hx _ _ (hf.enter hid hs) hs) fun r g h ↦ ⟨rfl, ?_, fun a ha ↦ ?_⟩
  · rw [← hname, ← h.1]
    exact h.2.1.leave fun (hgoing : False) ↦ hgoing.elim
  · cases r with
    | error e => cases ha
    | ok a' =>
      obtain rfl := Except.ok.inj ha
      rintro a ⟨⟩
      exact ⟨g, h.2.2 _ rfl, Std.TreeMap.getElem?_insert_self⟩

theorem firmAt_onBranch (hb : o.Fresh b) (hf : focus.Guided o held p True)
    (hx : ∀ held f, f.Guided o held True True → focus.stateAt? b = some f.state →
      x.GuidesAt o held f q Q) :
    (onBranch b x).FirmAt o held focus fun r f ↦ ∀ a, r = some a →
      ∃ g, Q a g ∧ f.stateAt? b = some g.state := by
  cases b with
  | current =>
    exact Ends.mono (firmAt_settling hf fun h ↦ hx held focus h rfl) fun _ f h ↦
      ⟨h.1, h.2.1, fun r hr a ha ↦ ⟨f, h.2.2 r hr a ha, rfl⟩⟩
  | forked id =>
    refine ends_bind (firmAt_visit hb hf fun held f hf' hs ↦ firmAt_settling hf' fun h ↦ hx held f h hs)
      (fun r f h ↦ ends_pure ⟨h.1, h.2.1, ?_⟩) fun _ _ h ↦ ⟨h.1, h.2.1, nofun⟩
    rintro _ ⟨⟩ a ha
    obtain ⟨g, hg, hat⟩ := h.2.2 r rfl (some a) (Option.join_eq_some_iff.1 ha)
    exact ⟨g, hg a rfl, hat⟩

theorem guides_onBranch (hb : o.Fresh b) (hx : x.Guides o True q R) :
    (onBranch b x).Guides o p False fun r ↦ ∀ a, r = some a → R a := fun _ _ hf ↦
  (firmAt_onBranch hb hf fun held f hf' _ ↦ hx held f hf').guidesAt.mono id fun _ _ h a ha ↦
    have ⟨_, hR, _⟩ := h a ha
    hR

theorem guides_onSide {b : Option Branch} {x : Exec σ Unit} (hb : ∀ b', b = some b' → o.Fresh b')
    (hx : x.Guides o True q fun _ ↦ True) : (onSide b x).Guides o p False fun _ ↦ True := by
  cases b with
  | none => exact (guides_pure trivial).relax id nofun
  | some b => exact guides_bind (guides_onBranch (hb b rfl) hx) fun _ _ ↦ guides_pure trivial

end Exec

end Symex
