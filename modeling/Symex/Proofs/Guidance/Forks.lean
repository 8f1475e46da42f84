import Mathlib.Data.List.Nodup
import Symex.Proofs.Guidance.Seeds

namespace Symex

open Checked

variable {σ α β : Type} {o : Outset} {held : List State} {going own p : Prop} {focus : Focus σ}
  {e condition : Expr} {child : State}

/-! ## Terms -/

theorem Expr.Determined.mkEq {L : Likeness} {l r : Expr} (hl : l.Determined L) (hr : r.Determined L) :
    Meets (Expr.mkEq l r) fun e ↦ (e.Determined L ∧ e.width = 1) ∧
      ∀ a : Assignment, a.free = true → (a.val e ≠ 0 ↔ a.val l = a.val r) :=
  (Checked.Ends.and (hl.mkCompare .eq hr) (Expr.safe_mkEq hl.wellFormed hr.wellFormed)).mono fun _ h ↦ ⟨h.1, h.2.2⟩

theorem Expr.Determined.side {L : Likeness} (hc : condition.Determined L) (hw : condition.width = 1) (side : Bool) :
    (if side then condition else condition.isZero).Determined L ∧
      (if side then condition else condition.isZero).width = 1 := by
  cases side with
  | true => exact ⟨hc, hw⟩
  | false => exact ⟨hc.isZero, (Expr.IsTruth.isZero ⟨hc.wellFormed, hw⟩).2⟩

namespace Exec

variable {x : Exec σ α} {Q Q' : α → Focus σ → Prop}

theorem GuidesAt.and {I : Trust} (hx : x.GuidesAt o held focus p Q) (hx' : x.KeepsAt I focus Q') :
    x.GuidesAt o held focus p fun a f ↦ Q a f ∧ Q' a f :=
  Ends.mono (Ends.and hx hx') fun _ _ h ↦
    ⟨h.1.1, fun a ha ↦ ⟨(h.1.2.1 a ha).1, (h.1.2.1 a ha).2, h.2.2 a ha⟩, h.1.2.2⟩

theorem GuidesAt.after {f : Focus σ} (hx : x.GuidesAt o held f p Q) (hid : f.state.id = focus.state.id) :
    x.Ends (fun _ ↦ True) f fun r g ↦ g.state.id = focus.state.id ∧
      (∀ a, r = .ok a → g.Guided o held p True ∧ Q a g) ∧
      ∀ e, r = .error e → g.Guided o held False (e.payload.isFatal = true) :=
  Ends.mono hx fun _ _ h ↦ ⟨h.1.trans hid, h.2⟩

/-! ## Values -/

theorem guides_toConstant (he : e.Determined o.apart) : (toConstant e : Exec σ Expr).Guides o p p fun v ↦
    v.Determined o.apart ∧ v.width = e.width := by
  intro held focus hf
  unfold toConstant
  split
  · exact guidesAt_pure hf ⟨he, rfl⟩
  · refine guidesAt_bind ((guides_value he.wellFormed held focus hf).and (keepsAt_value he.wellFormed hf.sound)) ?_
    intro v f hf hv
    obtain ⟨hdet, -, hstate, hexample⟩ := hv
    refine guidesAt_bind (guidesAt_lift (he.mkEq hdet.1) hf) ?_
    rintro c f hf ⟨rfl, hc, hval⟩
    refine guidesAt_bind (guidesAt_addConstraint hf hc.1 hc.2 ?_) fun _ f hf _ ↦ guidesAt_pure hf hdet
    obtain ⟨a, ha, heq⟩ := (hexample trivial).attained
    exact ⟨a, hstate ▸ ha, (hval a ha.free).2 heq⟩

theorem guides_toUnique (he : e.Determined o.apart) : (toUnique e : Exec σ Expr).Guides o p p fun v ↦
    v.Determined o.apart ∧ v.width = e.width := by
  have hvalue : (ask (Solver.value · e) : Exec σ _).Guides o p p fun r ↦ ∀ v, r = .ok v →
      v.Determined o.apart ∧ v.width = e.width := by
    intro held focus hf
    have hconst : (ask (Solver.value · e) : Exec σ _).Guides o p p fun r ↦ ∀ v, r = .ok v → v.isConst = true :=
      guides_ask fun _ hc hsat ↦ (Solver.answers_value hc hsat he.wellFormed).mono fun _ h ↦ h.isConst
    refine ((hconst held focus hf).and ((keeps_ask_value he.wellFormed).here hf.sound)).mono id fun r _ h v hv ↦ ?_
    exact ⟨Expr.determined_of_isConst (h.2 v hv).1 (h.1 v hv), (h.2 v hv).2⟩
  unfold toUnique
  split
  · exact guides_pure ⟨he, rfl⟩
  · refine guides_bind hvalue fun r hr ↦ ?_
    split
    · exact guides_pure ⟨he, rfl⟩
    · rename_i v
      have hv := hr v rfl
      refine guides_bind (guides_lift (he.mkEq hv.1)) fun same hsame ↦ ?_
      refine guides_bind (guides_ask (R := fun _ ↦ True) fun _ hc hsat ↦
        (Solver.answers_mustBeTrue hc hsat hsame.1.1.wellFormed).mono fun _ _ ↦ trivial) fun _ _ ↦ ?_
      split
      · exact guides_pure hv
      · exact guides_pure ⟨he, rfl⟩

end Exec

/-! ## Seeds that fit -/

/-- All seeds of the state satisfy the condition. -/
def Executor.Fits (e : Executor σ) (id : StateId) (condition : Expr) : Prop :=
  ∀ seeds, e.seeds[id]? = some seeds → ∀ seed ∈ seeds, seed.satisfies condition = true

section

variable {ex : Executor σ} {id n : StateId} {l : List Seed}

theorem Executor.fits_of_none (h : ex.seeds[id]? = none) : ex.Fits id condition := fun l hl ↦ by
  rw [h] at hl
  cases hl

theorem Executor.Fits.erase (h : ex.Fits id condition ∨ n = id) :
    ({ ex with seeds := ex.seeds.erase n } : Executor σ).Fits id condition := fun l hl ↦ by
  have hl : (ex.seeds.erase n)[id]? = some l := hl
  rw [Focus.getElem?_erase_state] at hl
  split at hl
  · cases hl
  · exact h.resolve_right ‹_› l hl

theorem Executor.Fits.insert (h : ex.Fits id condition)
    (hl : n = id → ∀ seed ∈ l, seed.satisfies condition = true) :
    ({ ex with seeds := ex.seeds.insert n l } : Executor σ).Fits id condition := fun m hm ↦ by
  have hm : (ex.seeds.insert n l)[id]? = some m := hm
  rw [Focus.getElem?_insert_state] at hm
  split at hm
  · exact Option.some.inj hm ▸ hl ‹_›
  · exact h m hm

end

namespace Focus.Guided

theorem leads (hf : focus.Guided o held True True) : focus.executor.Leads focus.state :=
  (hf.own trivial).resolve_left (hf.going trivial)

theorem dropSeeds (hf : focus.Guided o held going own) (id : StateId) :
    ({ focus with executor := { focus.executor with seeds := focus.executor.seeds.erase id } } :
      Focus σ).Guided o held going own := by
  refine hf.withSeeds fun id' l hl ↦ .inl ?_
  rw [getElem?_erase_state] at hl
  split at hl
  · cases hl
  · exact hl

theorem setSeeds {id : StateId} {seeds : List Seed} (hf : focus.Guided o held going own)
    (hid : id ∈ (focus.state :: held).map (·.id) ∨ ∃ s, focus.executor.states[id]? = some s)
    (h : ∀ s, s ∈ focus.state :: held ∨ focus.executor.states[id]? = some s → s.id = id →
      ∀ seed ∈ seeds, Inputs.all.Solves seed.assignment s.constraints) :
    ({ focus with executor := { focus.executor with seeds := focus.executor.seeds.insert id seeds } } :
      Focus σ).Guided o held going own := by
  refine hf.withSeeds fun id' l hl ↦ ?_
  rw [getElem?_insert_state] at hl
  split at hl
  · rename_i heq
    subst heq
    exact .inr ⟨hid, .inr (Option.some.inj hl ▸ h)⟩
  · exact .inl hl

theorem eq_of_mem {s t : State} (hf : focus.Guided o held going own) (hs : s ∈ focus.state :: held)
    (ht : t ∈ focus.state :: held ∨ focus.executor.states[s.id]? = some t) (hid : t.id = s.id) : t = s := by
  obtain ht | ht := ht
  · exact List.inj_on_of_nodup_map hf.nodup ht hs hid
  · rw [(hf.apart s hs).2.1] at ht
    cases ht

theorem setSeeds_of_mem {s : State} {seeds : List Seed} (hf : focus.Guided o held going own)
    (hs : s ∈ focus.state :: held) (h : ∀ seed ∈ seeds, Inputs.all.Solves seed.assignment s.constraints) :
    ({ focus with executor := { focus.executor with seeds := focus.executor.seeds.insert s.id seeds } } :
      Focus σ).Guided o held going own :=
  hf.setSeeds (.inl (List.mem_map_of_mem hs)) fun _ ht hid ↦ hf.eq_of_mem hs ht hid ▸ h

end Focus.Guided

namespace Exec

theorem ends_addConstraint_fit (hf : focus.Guided o held p True) (he : e.Determined o.apart) (hw : e.width = 1)
    (hsat : ∃ a, Inputs.all.Solves a focus.state.constraints ∧ a.val e ≠ 0)
    (hfit : focus.executor.Fits focus.state.id e) :
    (addConstraint e).Ends (fun _ ↦ True) focus fun r f ↦ r = .ok () ∧ f.executor = focus.executor ∧
      focus.state.Narrows o.object e f.state ∧ f.Guided o held p True := by
  have hs := hf.spans
  refine ends_bind (P := fun r f ↦ r = .ok () ∧ ∃ s, f = { focus with state := s } ∧
    focus.state.Narrows o.object e s) (ends_updateState ?_) (fun _ f h ↦ ?_) fun _ _ h ↦ nomatch h.1
  · exact (hs.grounded.meets_addConstraint (he.mono hs.like_le) hw hsat).mono fun s hs ↦ ⟨rfl, s, rfl, hs⟩
  · obtain ⟨-, s, rfl, hs⟩ := h
    have hguided : ({ focus with state := s } : Focus σ).Guided o held p True := by
      refine (hf.narrow hs).withOwn ?_
      show s.id ∈ focus.executor.removed ∨ focus.executor.Leads s
      rw [hs.id_eq]
      refine (hf.own trivial).imp_right fun hleads l hl seed hseed ↦ ?_
      rw [hs.id_eq] at hl
      have hsolves := hleads l hl seed hseed
      exact (hs.solves_iff _).2 ⟨hsolves, (Seed.satisfies_iff hsolves.possible).1 (hfit l hl seed hseed)⟩
    refine ends_bind_ok (run_seeds? rfl) ?_
    dsimp only
    split
    · rename_i seeds hseeds
      rw [if_pos]
      · exact ends_pure ⟨rfl, rfl, hs, hguided⟩
      · rw [hs.id_eq] at hseeds
        exact List.all_eq_true.2 (hfit seeds hseeds)
    · exact ends_pure ⟨rfl, rfl, hs, hguided⟩

end Exec

/-! ## Copies -/

/-- A copy of the state came up under a name that no seeds are for, and is laid aside. -/
structure Focus.Breeds (o : Outset) (held : List State) (going : Prop) (focus : Focus σ) (child : State)
    (f : Focus σ) : Prop where
  guided : f.Guided o (child :: held) going True
  stays : focus.state.Stays f.state
  constraints_eq : child.constraints = focus.state.constraints
  fresh : o.next ≤ child.id
  seeds_eq : f.executor.seeds = focus.executor.seeds
  unseeded : focus.executor.seeds[child.id]? = none
  states_eq : f.executor.states = focus.executor.states
  removed_eq : f.executor.removed = focus.executor.removed

theorem Focus.Guided.breed {s : State} (hf : focus.Guided o held going True)
    (hs : focus.state.Steady o.object s) (hchild : child.Grounded o.object) (hlike : child.like = focus.state.like)
    (hid : child.id = focus.executor.nextStateId) (hsame : child.constraints = focus.state.constraints)
    (added : List StateId) (tree : ProcessTree) :
    focus.Breeds o held going child ⟨{ focus.executor with
      nextStateId := focus.executor.nextStateId + 1, added, tree }, s⟩ := by
  have hunnamed : ∀ t ∈ focus.state :: held, t.id ≠ child.id := fun t ht heq ↦
    Nat.lt_irrefl _ (hid ▸ heq ▸ (hf.apart t ht).1)
  have hunborn : focus.executor.states[child.id]? = none := by
    refine Option.eq_none_iff_forall_ne_some.2 fun t ht ↦ ?_
    have hlt := (hf.executor.states _ t ht).lt
    rw [hid] at hlt
    exact Nat.lt_irrefl _ hlt
  have hunseeded : focus.executor.seeds[child.id]? = none := by
    refine Option.eq_none_iff_forall_ne_some.2 fun l hl ↦ ?_
    obtain hmem | ⟨t, ht⟩ := hf.keys _ l hl
    · obtain ⟨t, ht, heq⟩ := List.mem_map.1 hmem
      exact hunnamed t ht heq
    · rw [hunborn] at ht
      cases ht
  have hf' := hf.withState hs
  refine ⟨⟨⟨hf.executor.exact, hf.executor.supplies, hf.executor.constants, Nat.le_succ_of_le hf.executor.next_le,
    fun id t ht ↦ ?_⟩, ?_, ?_, ?_, ?_, hf'.going, hf'.own⟩, hs.toStays, hsame, hid ▸ hf.executor.next_le, rfl,
    hunseeded, rfl, rfl⟩
  · have h := hf.executor.states id t ht
    exact ⟨h.id_eq, Nat.lt_succ_of_lt h.lt, h.grounded, h.spans, h.rests⟩
  · have hold : ∀ t ∈ s :: held, t.id < focus.executor.nextStateId + 1 ∧
        focus.executor.states[t.id]? = none ∧ o.Spans t := fun t ht ↦
      ⟨Nat.lt_succ_of_lt (hf'.apart t ht).1, (hf'.apart t ht).2⟩
    rw [List.forall_mem_cons] at hold
    refine List.forall_mem_cons.2 ⟨hold.1, List.forall_mem_cons.2 ⟨⟨?_, hunborn, hchild, ?_⟩, hold.2⟩⟩
    · exact hid ▸ Nat.lt_succ_self _
    · exact hlike ▸ hf.spans.like_le
  · refine List.forall_mem_cons.2 ⟨.inr fun l hl ↦ ?_, hf.rests⟩
    have hl : focus.executor.seeds[child.id]? = some l := hl
    rw [hunseeded] at hl
    cases hl
  · have hnodup := hf'.nodup
    rw [List.map_cons, List.nodup_cons] at hnodup
    rw [List.map_cons, List.map_cons, List.nodup_cons, List.nodup_cons, List.mem_cons, not_or]
    refine ⟨⟨hs.id_eq ▸ hunnamed _ List.mem_cons_self, hnodup.1⟩, fun hmem ↦ ?_, hnodup.2⟩
    obtain ⟨t, ht, heq⟩ := List.mem_map.1 hmem
    exact hunnamed t (List.mem_cons_of_mem _ ht) heq
  · intro id l hl
    refine (hf'.keys id l hl).imp_left fun hmem ↦ ?_
    rw [List.map_cons, List.mem_cons] at hmem
    rw [List.map_cons, List.map_cons, List.mem_cons, List.mem_cons]
    exact hmem.imp_right .inr

namespace Exec

theorem ends_spawn_guided (hf : focus.Guided o held p True) :
    (spawn : Exec σ State).Ends (fun _ ↦ True) focus fun r f ↦ ∃ child, r = .ok child ∧
      focus.Breeds o held p child f := by
  obtain ⟨hparent, hchild, hlike⟩ := hf.spans.grounded.branch focus.executor.nextStateId
  refine ends_bind_ok rfl ?_
  dsimp only
  split
  · exact ends_bind_ok rfl (ends_pure ⟨_, rfl, hf.breed hparent hchild hlike rfl rfl _ _⟩)
  · refine ends_bind (P := fun r f ↦ f = focus ∧ ∃ a, r = .ok a) (ends_lift (ends_true_iff.2 fun a _ ↦ ⟨rfl, a, rfl⟩))
      ?_ fun _ _ h ↦ nomatch h.2
    rintro ⟨⟨left, right⟩, tree⟩ f ⟨rfl, -⟩
    have hleft : f.state.Steady o.object { (f.state.branch f.executor.nextStateId).1 with node := some left } :=
      ⟨⟨rfl, rfl, rfl⟩, hparent.grounded.withNode _⟩
    exact ends_bind_ok rfl (ends_pure ⟨_, rfl, hf.breed hleft (hchild.withNode (some right)) hlike rfl rfl _ _⟩)

end Exec

/-! ## Both sides -/

/-- A state that is there came up after the work started, or is the one that is worked on. -/
def Outset.FreshAt (o : Outset) (b : Option Branch) : Prop := ∀ b', b = some b' → o.Fresh b'

theorem Outset.freshAt_none : o.FreshAt none := nofun

theorem Outset.freshAt_current : o.FreshAt (some .current) := by
  rintro _ ⟨⟩
  trivial

theorem Outset.freshAt_forked {id : StateId} (h : o.next ≤ id) : o.FreshAt (some (.forked id)) := by
  rintro _ ⟨⟩
  exact h

/-- Sides of a fork of the state at `b`. They came out of the fork, and where the condition is to hold it does. -/
structure Outset.Parts (o : Outset) (b : Branch) (condition : Expr) (sides : Sides) (f : Focus σ) : Prop where
  inside : o.FreshAt sides.1
  outside : o.FreshAt sides.2
  holds : ∀ b', sides.1 = some b' → b' = b ∧ ∀ s, f.stateAt? b = some s →
    ∀ a, Inputs.all.Solves a s.constraints → a.val condition ≠ 0

theorem Outset.parts_none {b : Branch} : o.Parts b condition (none, none) focus := ⟨freshAt_none, freshAt_none, nofun⟩

theorem Outset.parts_current {second : Option Branch} (hsecond : o.FreshAt second)
    (h : ∀ a, Inputs.all.Solves a focus.state.constraints → a.val condition ≠ 0) :
    o.Parts .current condition (some .current, second) focus := by
  refine ⟨freshAt_current, hsecond, ?_⟩
  rintro _ ⟨⟩
  exact ⟨rfl, fun s hs ↦ Option.some.inj hs ▸ h⟩

theorem Focus.Guided.recorded (hf : focus.Guided o held going own) (side internal : Bool) :
    (focus.recorded side internal).Guided o held going own := by
  have hs := hf.spans.grounded
  cases internal with
  | true => exact hf
  | false =>
    exact hf.withState ⟨⟨rfl, rfl, rfl⟩, hs.valid, hs.satisfiable, hs.closed, hs.names, hs.threads, hs.memory⟩

theorem Focus.stays_recorded (focus : Focus σ) (side internal : Bool) :
    focus.state.Stays (focus.recorded side internal).state ∧
      (focus.recorded side internal).executor = focus.executor := by
  cases internal <;> exact ⟨⟨rfl, rfl, rfl⟩, rfl⟩

namespace Exec

theorem guidesAt_settleSides (hf : focus.Guided o (child :: held) p True) (hfresh : o.next ≤ child.id)
    (hholds : ∀ a, Inputs.all.Solves a focus.state.constraints → a.val condition ≠ 0) : (do
      let maxDepth := (← executor).config.maxDepth
      if maxDepth ≠ 0 ∧ maxDepth ≤ (← state).depth then
        terminateEarly "max-depth exceeded"
        insertState child
        let _ ← visit child.id (terminateEarly "max-depth exceeded")
        return (none, none)
      insertState child
      return (some .current, some (.forked child.id)) : Exec σ Sides).GuidesAt o held focus False
        fun sides f ↦ o.Parts .current condition sides f := by
  refine ends_bind_ok rfl (ends_bind_ok rfl ?_)
  split
  · have hquits := quits_terminateWith (σ := σ) (.early "max-depth exceeded") none focus
    refine ends_bind (Ends.and (carries_terminateWith _ _ (child :: held) True focus hf.rest) hquits) ?_ ?_
    · intro _ f h
      refine ends_bind_ok rfl ?_
      have hgone := firmAt_visit (Q := fun _ _ ↦ True) hfresh h.1.2.insert fun held f hf _ ↦
        (carries_terminateWith (.early "max-depth exceeded") none).firmAt hf
      exact (guidesAt_bind hgone.guidesAt fun _ f hf _ ↦
        guidesAt_pure hf Outset.parts_none).after h.1.1
    · rintro _ _ ⟨-, _, ⟨⟩, -⟩
  · exact ends_bind_ok rfl (guidesAt_pure (hf.insert.mono False.elim id)
      (Outset.parts_current (Outset.freshAt_forked hfresh) hholds))

theorem guidesAt_bothSides (internal : Bool) (hf : focus.Guided o (child :: held) True True)
    (hc : condition.Determined o.apart) (hw : condition.width = 1)
    (hopen : focus.state.constraints.Open Inputs.all condition)
    (hsame : child.constraints = focus.state.constraints) (hfresh : o.next ≤ child.id)
    (hfit : focus.executor.Fits focus.state.id condition)
    (hfit' : focus.executor.Fits child.id condition.isZero) : (do
      recordSide true internal
      addConstraint condition
      let (result, child) ← within child do
        recordSide false internal
        addConstraint condition.isZero
      MonadExcept.ofExcept result
      let maxDepth := (← executor).config.maxDepth
      if maxDepth ≠ 0 ∧ maxDepth ≤ (← state).depth then
        terminateEarly "max-depth exceeded"
        insertState child
        let _ ← visit child.id (terminateEarly "max-depth exceeded")
        return (none, none)
      insertState child
      return (some .current, some (.forked child.id)) : Exec σ Sides).GuidesAt o held focus False
        fun sides f ↦ o.Parts .current condition sides f := by
  have htruth : condition.IsTruth := ⟨hc.wellFormed, hw⟩
  refine ends_bind_ok (run_recordSide true internal) ?_
  obtain ⟨hstays, hexecutor⟩ := focus.stays_recorded true internal
  refine ends_bind (ends_addConstraint_fit (hf.recorded true internal) hc hw ?_ ?_) (fun _ f h ↦ ?_) ?_
  · rw [hstays.constraints_eq]
    exact (hopen.side htruth true).2 trivial
  · rw [hexecutor, hstays.id_eq]
    exact hfit
  · obtain ⟨-, hsame', hnarrows, hf'⟩ := h
    have hid : f.state.id = focus.state.id := hnarrows.id_eq.trans hstays.id_eq
    have hexecutor' : f.executor = focus.executor := hsame'.trans hexecutor
    refine ends_bind (P := fun r g ↦ ∃ s, r = .ok (.ok (), s) ∧ g = f ∧ s.id = child.id ∧
      f.Guided o (s :: held) True True) (ends_within ?_) ?_ ?_
    · have hswap := hf'.swap
      refine ends_bind_ok (run_recordSide false internal) ?_
      obtain ⟨hstays₁, hexecutor₁⟩ := Focus.stays_recorded { f with state := child } false internal
      have hzero := hc.side hw false
      refine (ends_addConstraint_fit (hswap.recorded false internal) hzero.1 hzero.2 ?_ ?_).mono ?_
      · rw [hstays₁.constraints_eq]
        exact hsame ▸ (hopen.side htruth false).2 trivial
      · rw [hexecutor₁, hstays₁.id_eq]
        exact hexecutor' ▸ hfit'
      · rintro r g ⟨rfl, hsame₁, hnarrows₁, hg⟩
        have hg' : ({ g with state := f.state } : Focus σ) = f := by rw [hsame₁, hexecutor₁]
        have hback := hg.swap
        rw [hg'] at hback
        exact ⟨_, rfl, hg', hnarrows₁.id_eq.trans hstays₁.id_eq,
          hback.executor, hback.apart, hback.rests, hback.nodup, hback.keys, hf'.going, hback.own⟩
    · rintro _ _ ⟨s, ⟨⟩, rfl, hs, hg⟩
      refine ends_bind_ok rfl ((guidesAt_settleSides hg (hs ▸ hfresh) fun a ha ↦ ?_).after hid)
      exact ((hnarrows.solves_iff a).1 ha).2
    · rintro _ _ ⟨_, ⟨⟩, -⟩
  · rintro _ _ ⟨⟨⟩, -⟩

theorem guidesAt_split (internal : Bool) (hf : focus.Guided o held True True) (hc : condition.Determined o.apart)
    (hw : condition.width = 1) (hopen : focus.state.constraints.Open Inputs.all condition) :
    (split condition internal).GuidesAt o held focus False fun sides f ↦ o.Parts .current condition sides f := by
  have hforked : ({ focus with executor := { focus.executor with
      statistics.forks := focus.executor.statistics.forks + 1 } } : Focus σ).Guided o held True True :=
    hf.aligns ⟨rfl, rfl, rfl, rfl, rfl, rfl⟩
  refine ends_bind_ok rfl (ends_bind (ends_spawn_guided hforked) (fun child f h ↦ ?_) fun _ _ h ↦ ?_)
  · obtain ⟨_, ⟨⟩, hbreeds⟩ := h
    have hown := hbreeds.guided
    have hne : child.id ≠ f.state.id := by
      have hnodup := hown.nodup
      rw [List.map_cons, List.map_cons, List.nodup_cons, List.mem_cons, not_or] at hnodup
      exact Ne.symm hnodup.1.1
    have hsame : child.constraints = f.state.constraints :=
      hbreeds.constraints_eq.trans hbreeds.stays.constraints_eq.symm
    have hboth : ∀ {g : Focus σ}, g.Guided o (child :: held) True True → g.state = f.state →
        g.executor.Fits f.state.id condition → g.executor.Fits child.id condition.isZero → _ :=
      fun {g} hg hstate hfit hfit' ↦ (guidesAt_bothSides internal hg hc hw
        (by rw [hstate, hbreeds.stays.constraints_eq]; exact hopen) (hstate ▸ hsame) hbreeds.fresh
        (hstate ▸ hfit) hfit').after ((congrArg State.id hstate).trans hbreeds.stays.id_eq)
    have hunseeded : f.executor.seeds[child.id]? = none := by
      rw [hbreeds.seeds_eq]
      exact hbreeds.unseeded
    refine ends_bind_ok rfl (ends_bind_ok (run_seeds? rfl) ?_)
    dsimp only
    split
    · rename_i seeds hseeds
      have hsolves := hown.leads seeds hseeds
      generalize hdivided : seeds.partition (·.satisfies condition) = divided
      obtain ⟨led, left⟩ := divided
      rw [List.partition_eq_filter_filter, Prod.mk.injEq] at hdivided
      obtain ⟨rfl, rfl⟩ := hdivided
      have hled : ∀ seed ∈ seeds.filter (·.satisfies condition), seed.satisfies condition = true :=
        fun seed hseed ↦ (List.mem_filter.1 hseed).2
      have hleft : ∀ seed ∈ seeds.filter (not ∘ (·.satisfies condition)), seed.satisfies condition.isZero = true := by
        intro seed hseed
        obtain ⟨hseed, hfails⟩ := List.mem_filter.1 hseed
        exact Seed.satisfies_isZero (hsolves seed hseed).possible hc.wellFormed (by simpa using hfails)
      have hfits : f.executor.Fits child.id condition.isZero := Executor.fits_of_none hunseeded
      have hdropped := hown.dropSeeds f.state.id
      have hdroppedOwn : ({ f.executor with seeds := f.executor.seeds.erase f.state.id } : Executor σ).Fits f.state.id
          condition := .erase (.inr rfl)
      have hdroppedCopy := Executor.Fits.erase (n := f.state.id) (.inl hfits)
      have hsolvesLed : ∀ seed ∈ seeds.filter (·.satisfies condition),
          Inputs.all.Solves seed.assignment f.state.constraints := fun seed hseed ↦
        hsolves seed (List.mem_filter.1 hseed).1
      have hsolvesLeft : ∀ seed ∈ seeds.filter (not ∘ (·.satisfies condition)),
          Inputs.all.Solves seed.assignment child.constraints := fun seed hseed ↦
        hsame ▸ hsolves seed (List.mem_filter.1 hseed).1
      refine ends_bind_ok rfl ?_
      dsimp only
      split
      · split
        · exact hboth hdropped rfl hdroppedOwn hdroppedCopy
        · refine ends_bind_ok rfl (hboth (hdropped.setSeeds_of_mem (s := child) ?_ hsolvesLeft) rfl
            (hdroppedOwn.insert fun heq ↦ absurd heq hne) (hdroppedCopy.insert fun _ ↦ hleft))
          exact List.mem_cons_of_mem _ List.mem_cons_self
      · have hset := hdropped.setSeeds_of_mem (s := f.state) List.mem_cons_self hsolvesLed
        have hsetOwn := hdroppedOwn.insert (n := f.state.id) fun _ ↦ hled
        have hsetCopy := hdroppedCopy.insert (n := f.state.id) (l := seeds.filter (·.satisfies condition))
          fun heq ↦ absurd heq.symm hne
        refine ends_bind_ok rfl ?_
        split
        · exact hboth hset rfl hsetOwn hsetCopy
        · refine ends_bind_ok rfl (hboth (hset.setSeeds_of_mem (s := child) ?_ hsolvesLeft) rfl
            (hsetOwn.insert fun heq ↦ absurd heq hne) (hsetCopy.insert fun _ ↦ hleft))
          exact List.mem_cons_of_mem _ List.mem_cons_self
    · rename_i hnone
      refine hboth hown rfl (fun l hl ↦ absurd hl (hnone l)) fun l hl ↦ ?_
      rw [hunseeded] at hl
      cases hl
  · obtain ⟨_, ⟨⟩, -⟩ := h

/-! ## Forks -/

theorem guidesAt_takeSide (hf : focus.Guided o held p True) (hc : condition.Determined o.apart)
    (hw : condition.width = 1) (hopen : focus.state.constraints.Open Inputs.all condition) (side : Bool) :
    (takeSide condition side).GuidesAt o held focus p fun v f ↦ v = .always →
      ∀ a, Inputs.all.Solves a f.state.constraints → a.val condition ≠ 0 := by
  have hside := hc.side hw side
  refine guidesAt_bind (guidesAt_addConstraint hf hside.1 hside.2 ?_) fun _ f hf hsolves ↦ guidesAt_pure hf ?_
  · exact (hopen.side ⟨hc.wellFormed, hw⟩ side).2 trivial
  · cases side with
    | true => exact fun _ a ha ↦ ((hsolves a).1 ha).2
    | false => exact nofun

theorem guidesAt_restrict {v : Validity} (internal : Bool) (hf : focus.Guided o held p True)
    (hc : condition.Determined o.apart) (hw : condition.width = 1)
    (hv : v = .sometimes → focus.state.constraints.Open Inputs.all condition)
    (halways : v = .always → ∀ a, Inputs.all.Solves a focus.state.constraints → a.val condition ≠ 0) :
    (restrict condition internal v).GuidesAt o held focus p fun v' f ↦ v' = .always →
      ∀ a, Inputs.all.Solves a f.state.constraints → a.val condition ≠ 0 := by
  refine ends_bind_ok rfl (ends_bind_ok rfl ?_)
  split
  -- a path is replayed
  · refine ends_bind_ok rfl ?_
    split
    · exact guidesAt_pure hf halways
    · exact guidesAt_fail _ hf
    · rename_i side rest _
      refine ends_bind_ok rfl ?_
      have hf' : ({ focus with executor := { focus.executor with replayPath := some rest } } : Focus σ).Guided o held
          p True := hf.aligns ⟨rfl, rfl, rfl, rfl, rfl, rfl⟩
      split
      · exact guidesAt_fail _ hf'
      · exact guidesAt_fail _ hf'
      · exact guidesAt_takeSide hf' hc hw (hv rfl) _
      · exact guidesAt_pure hf' halways
  · split
    · rename_i hsome
      split
      · refine ends_bind_ok rfl ?_
        split
        · unfold followSeeds
          dsimp only
          split
          · exact guidesAt_takeSide hf hc hw (hv hsome) _
          · exact guidesAt_pure hf nofun
        · exact guidesAt_pure hf halways
      · refine ends_bind_ok rfl ?_
        split
        · refine ends_bind_ok rfl ?_
          have hf' : ({ focus with executor := { focus.executor with rng := (Rng.coin focus.executor.rng).2 } } :
            Focus σ).Guided o held p True := hf.aligns ⟨rfl, rfl, rfl, rfl, rfl, rfl⟩
          exact guidesAt_takeSide hf' hc hw (hv hsome) _
        · exact guidesAt_pure hf halways
    · exact guidesAt_pure hf halways

theorem guidesAt_fork (hf : focus.Guided o held True True) (hc : condition.Determined o.apart)
    (hw : condition.width = 1) (internal : Bool) :
    (fork condition internal).GuidesAt o held focus False fun sides f ↦ o.Parts .current condition sides f := by
  have hs := hf.spans.grounded
  have htruth : condition.IsTruth := ⟨hc.wellFormed, hw⟩
  refine guidesAt_bind (guidesAt_query (Solver.answers_evaluate hs.valid hs.satisfiable hc.wellFormed) hf) ?_
  rintro v f hf ⟨⟨solver, rfl⟩, htells⟩
  have hopen : v = .sometimes → focus.state.constraints.Open Inputs.all condition := by
    rintro rfl
    exact Validity.Tells.isOpen fun _ ↦ htells
  refine guidesAt_bind ((guidesAt_restrict internal hf hc hw hopen htells.always_iff.1).and
    (keepsAt_restrict hf.sound htruth hopen)) fun v' f hf h ↦ ?_
  cases v' with
  | always =>
    obtain ⟨hstays, -⟩ := f.stays_recorded true internal
    refine ends_bind_ok (run_recordSide true internal) (GuidesAt.after (guidesAt_pure ?_ ?_) hstays.id_eq)
    · exact (hf.recorded true internal).mono False.elim id
    · refine Outset.parts_current Outset.freshAt_none ?_
      rw [hstays.constraints_eq]
      exact h.1 rfl
  | never =>
    refine ends_bind_ok (run_recordSide false internal) (GuidesAt.after (guidesAt_pure ?_ ?_) ?_)
    · exact (hf.recorded false internal).mono False.elim id
    · exact ⟨Outset.freshAt_none, Outset.freshAt_current, nofun⟩
    · exact (f.stays_recorded false internal).1.id_eq
  | sometimes => exact guidesAt_split internal hf hc hw (h.2 rfl)

theorem guides_fork (hc : condition.Determined o.apart) (hw : condition.width = 1) (internal : Bool) :
    (fork condition internal : Exec σ Sides).Guides o True False fun sides ↦
      o.FreshAt sides.1 ∧ o.FreshAt sides.2 := fun _ _ hf ↦
  (guidesAt_fork hf hc hw internal).mono id fun _ _ h ↦ ⟨h.inside, h.outside⟩

theorem guidesAt_forkOn {b : Branch} (hb : o.Fresh b) (hf : focus.Guided o held p True)
    (hc : condition.Determined o.apart) (hw : condition.width = 1) (internal : Bool) :
    (forkOn b condition internal).GuidesAt o held focus False fun sides f ↦ o.Parts b condition sides f := by
  have hrelative : ∀ side : Option Branch, o.FreshAt side → o.FreshAt (side.map (·.relativeTo b)) := by
    intro side hside b' hb'
    obtain ⟨b'', rfl, rfl⟩ := Option.map_eq_some_iff.1 hb'
    cases b'' with
    | current => exact hb
    | forked id => exact hside _ rfl
  refine guidesAt_bind (firmAt_onBranch hb hf fun held f hf _ ↦ guidesAt_fork hf hc hw internal).guidesAt
    fun r f hf h ↦ ?_
  split
  · exact guidesAt_pure hf Outset.parts_none
  · rename_i holds fails
    obtain ⟨g, hg, hat⟩ := h _ rfl
    refine guidesAt_pure hf ⟨hrelative _ hg.inside, hrelative _ hg.outside, fun b' hb' ↦ ?_⟩
    obtain ⟨b'', rfl, rfl⟩ := Option.map_eq_some_iff.1 hb'
    obtain ⟨rfl, hholds⟩ := hg.holds b'' rfl
    exact ⟨rfl, fun s hs ↦ hholds s (hat.symm.trans hs)⟩

end Exec

end Symex
