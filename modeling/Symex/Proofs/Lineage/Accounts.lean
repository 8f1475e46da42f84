import Symex.Proofs.Feasibility.Branching
import Symex.Proofs.Lineage.Moves

namespace Symex

variable {σ α β : Type} {I : Trust} {condition : Expr} {internal : Bool}

/-! ## Seeds -/

namespace Seed

variable {seed : Seed}

theorem satisfies_iff (hfree : seed.assignment.free) :
    seed.satisfies condition = true ↔ seed.assignment.val condition ≠ 0 := by
  simp [satisfies, Assignment.value?_eq_eval, Assignment.eval_eq_val hfree]

theorem satisfies_isZero (hfree : seed.assignment.free) (hcond : condition.WellFormed)
    (h : ¬seed.satisfies condition = true) : seed.satisfies condition.isZero = true := by
  rw [satisfies_iff hfree, not_not] at h
  rw [satisfies_iff hfree, Expr.val_isZero hfree hcond, if_pos h]
  decide

theorem free_foldl {γ : Type} {f : Seed → γ → Seed} (hf : ∀ s x, (f s x).assignment.free = s.assignment.free)
    (l : List γ) (seed : Seed) : (l.foldl f seed).assignment.free = seed.assignment.free := by
  induction l generalizing seed with
  | nil => rfl
  | cons x l ih => exact (ih (f seed x)).trans (hf seed x)

end Seed

namespace Focus

variable {f g h : Focus σ}

theorem isEmpty_seeds_of_getElem? {id : StateId} {seeds : List Seed}
    (h : f.executor.seeds[id]? = some seeds) : f.executor.seeds.isEmpty = false := by
  refine Bool.eq_false_iff.2 fun hempty ↦ ?_
  rw [Std.TreeMap.getElem?_of_isEmpty hempty] at h
  cases h

theorem Own.withSeeds (h : f.Own I g) (hne : f.executor.seeds.isEmpty = false)
    (seeds : Std.TreeMap StateId (List Seed)) :
    f.Own I { g with executor := { g.executor with seeds } } :=
  ⟨h.id_eq, h.part, h.narrower, h.states_eq, h.next_le, h.removed, h.removed_sub, h.cases,
    h.steady.config_eq, h.steady.replayPath_eq, fun hempty ↦ (Bool.eq_false_iff.1 hne hempty).elim⟩

theorem Solo.setSeeds {old seeds : List Seed} (hold : f.executor.seeds[f.state.id]? = some old)
    (hfree : (∀ seed ∈ old, seed.assignment.free) → ∀ seed ∈ seeds, seed.assignment.free) :
    f.Solo I { f with executor := { f.executor with seeds := f.executor.seeds.insert f.state.id seeds } } where
  toOwn := (Own.refl I f).withSeeds (isEmpty_seeds_of_getElem? hold) _
  booked := ((Writes.refl f).setSeeds (.inl (.inl rfl)) fun hfit ↦
    (hfit _ old hold).imp_right hfree).booked

/-! ## Work that is not written down -/

theorem Writes.of_state {s : State} (hid : s.id = f.state.id) : f.Writes [] [] [] [] { f with state := s } :=
  { Writes.refl f with
    id_eq := hid
    held := fun id ↦ by simp [Has, hid]
    gone := nofun
    seeds := fun _ ↦ .inl }

theorem writes_recorded (f : Focus σ) (side internal : Bool) : f.Writes [] [] [] [] (f.recorded side internal) := by
  cases internal with
  | true => exact .refl f
  | false => exact .of_state rfl

theorem writes_withReplayPath (f : Focus σ) (rest : List Bool) :
    f.Writes [] [] [] [] (f.withReplayPath rest) :=
  { Writes.refl f with reported_sub := fun _ ↦ id }

def afterForks (f : Focus σ) (n : Nat) : Focus σ :=
  { f with executor := { f.executor with statistics.forks := f.executor.statistics.forks + n } }

theorem quiet_afterForks (f : Focus σ) (n : Nat) : f.executor.Quiet (f.afterForks n).executor :=
  ⟨⟨rfl, rfl, rfl, rfl, rfl, rfl, id⟩, rfl, rfl, rfl, rfl⟩

theorem writes_afterForks (f : Focus σ) (n : Nat) : f.Writes [] [] [] [] (f.afterForks n) :=
  .of_quiet (f.quiet_afterForks n) (.refl _)

theorem solo_afterForks (f : Focus σ) (n : Nat) : f.Solo I (f.afterForks n) :=
  .of_quiet (f.quiet_afterForks n) (.refl _)

theorem Tidy.afterForks (hf : f.Tidy) (n : Nat) : (f.afterForks n).Tidy :=
  ⟨hf.named, hf.own_lt, hf.own_none, hf.removed_lt⟩

/-! ## Copies -/

/-- The copy has its name and is not live yet. -/
structure Pending (f : Focus σ) (child : State) (g : Focus σ) : Prop where
  id_eq : child.id = f.executor.nextStateId
  writes : f.Writes [child.id] [] [] [] g

theorem writes_insert (f : Focus σ) (child : State) : f.Writes [] [child.id] [] []
    ⟨{ f.executor with states := f.executor.states.insert child.id child }, f.state⟩ :=
  { Writes.refl f with
    held := fun id ↦ by
      simp only [Has, getElem?_insert_state, List.mem_singleton, or_assoc, eq_comm (a := id)]
      by_cases heq : child.id = id <;> simp [heq]
    reported_sub := fun _ ↦ id
    seeds := fun _ ↦ .inl
    gone := nofun
    names := fun hnames id s hs ↦ by
      dsimp only at hs
      rw [getElem?_insert_state] at hs
      split at hs
      · exact Option.some.inj hs ▸ ‹child.id = id›
      · exact hnames id s hs }

theorem Pending.visit {id : StateId} {s child : State} (hs : f.executor.states[id]? = some s) (hname : s.id = id)
    (h : Pending ⟨{ f.executor with states := f.executor.states.erase id }, s⟩ child g) :
    f.Pending child ⟨{ g.executor with states := g.executor.states.insert id g.state }, f.state⟩ :=
  ⟨h.id_eq, h.writes.visit hs hname⟩

theorem Pending.insert {child : State} (h : f.Pending child g) : f.Writes [child.id] [child.id] [] []
    ⟨{ g.executor with states := g.executor.states.insert child.id child }, g.state⟩ :=
  h.writes.trans (writes_insert g child)

/-- The copy has its name, and it has the seeds that lead to where the condition fails. The other seeds
lead to where it holds. -/
structure Divided (f : Focus σ) (condition : Expr) (child : State) (g : Focus σ) : Prop
    extends f.Pending child g where
  holds : ∀ seeds, g.executor.seeds[g.state.id]? = some seeds → ∀ seed ∈ seeds, seed.satisfies condition
  fails : ∀ seeds, g.executor.seeds[child.id]? = some seeds → ∀ seed ∈ seeds, seed.satisfies condition.isZero

section

variable {child : State} {seeds : List Seed}

theorem Pending.divided (h : f.Pending child g) (hown : g.executor.seeds[g.state.id]? = none)
    (hchild : g.executor.seeds[child.id]? = none) : f.Divided condition child g where
  toPending := h
  holds _ hl := nomatch hown.symm.trans hl
  fails _ hl := nomatch hchild.symm.trans hl

theorem Divided.setOwn (h : f.Divided condition child g) (hlt : f.state.id < f.executor.nextStateId)
    (hfree : ∀ seed ∈ seeds, seed.assignment.free) (hseeds : ∀ seed ∈ seeds, seed.satisfies condition) :
    f.Divided condition child
      { g with executor := { g.executor with seeds := g.executor.seeds.insert g.state.id seeds } } := by
  refine ⟨⟨h.id_eq, h.writes.setSeeds (.inl (.inl rfl)) fun _ ↦ ⟨?_, hfree⟩⟩, fun l hl ↦ ?_, fun l hl ↦ ?_⟩
  · rw [h.writes.id_eq, h.writes.next_eq]
    exact Nat.lt_add_right _ hlt
  · rw [getElem?_insert_state, if_pos rfl] at hl
    exact Option.some.inj hl ▸ hseeds
  · rw [getElem?_insert_state, if_neg] at hl
    · exact h.fails l hl
    · rw [h.writes.id_eq, h.id_eq]
      exact Nat.ne_of_lt hlt

theorem Divided.setCopy (h : f.Divided condition child g) (hlt : f.state.id < f.executor.nextStateId)
    (hfree : ∀ seed ∈ seeds, seed.assignment.free) (hseeds : ∀ seed ∈ seeds, seed.satisfies condition.isZero) :
    f.Divided condition child
      { g with executor := { g.executor with seeds := g.executor.seeds.insert child.id seeds } } := by
  refine ⟨⟨h.id_eq, h.writes.setSeeds (.inr (List.mem_singleton_self _)) fun _ ↦ ⟨?_, hfree⟩⟩, fun l hl ↦ ?_,
    fun l hl ↦ ?_⟩
  · rw [h.id_eq, h.writes.next_eq]
    exact Nat.lt_succ_self _
  · rw [getElem?_insert_state, if_neg] at hl
    · exact h.holds l hl
    · dsimp only
      rw [h.writes.id_eq, h.id_eq]
      exact Nat.ne_of_gt hlt
  · rw [getElem?_insert_state, if_pos rfl] at hl
    exact Option.some.inj hl ▸ hseeds

end

end Focus

namespace Exec

variable {focus : Focus σ}

theorem ends_vacuous (x : Exec σ α) (focus : Focus σ) : x.Ends (fun _ ↦ True) focus fun _ _ ↦ True := by
  unfold Ends
  exact Checked.ends_any _

theorem ends_spawn_pending : (spawn : Exec σ State).Ends (fun _ ↦ True) focus fun r f ↦
    ∃ child, r = .ok child ∧ focus.Pending child f ∧ f.executor.seeds = focus.executor.seeds := by
  have hpending : ∀ (tree : ProcessTree) (child parent : State), child.id = focus.executor.nextStateId →
      parent.id = focus.state.id → focus.Pending child
        ⟨{ focus.executor with
            nextStateId := focus.executor.nextStateId + 1
            added := focus.executor.added ++ [focus.executor.nextStateId], tree }, parent⟩ := by
    intro tree child parent hchild hparent
    refine ⟨hchild, hparent, fun id ↦ ?_, ?_, rfl, ?_, ?_, .nil, by simp, ?_, fun _ ↦ id, fun _ ↦ .inl, rfl, rfl,
      fun _ ↦ .inl, fun hfit id seeds h ↦ ?_, id⟩
    · simp [Focus.Has, hparent]
    · simp [hchild]
    · simp [hchild]
    · simp
    · simp
    · exact ⟨Nat.lt_succ_of_lt (hfit id seeds h).1, (hfit id seeds h).2⟩
  refine ends_bind_ok rfl ?_
  dsimp only
  split
  · exact ends_bind_ok rfl (ends_pure ⟨_, rfl, hpending _ _ _ rfl rfl, rfl⟩)
  · refine ends_bind (P := fun r f ↦ (∃ p, r = .ok p) ∧ f = focus)
      (ends_lift (Checked.ends_true_iff.2 fun p _ ↦ ⟨⟨p, rfl⟩, rfl⟩)) ?_ ?_
    · rintro ⟨⟨left, right⟩, tree⟩ _ ⟨-, rfl⟩
      exact ends_bind_ok rfl (ends_pure ⟨_, rfl, hpending _ _ _ rfl rfl, rfl⟩)
    · rintro _ _ ⟨⟨_, ⟨⟩⟩, -⟩

theorem ends_addConstraint_led (h : ∀ seeds, focus.executor.seeds[focus.state.id]? = some seeds →
      ∀ seed ∈ seeds, seed.satisfies condition) :
    (addConstraint condition).Ends (fun _ ↦ True) focus fun r f ↦
      r = .ok () ∧ ∃ s : State, s.id = focus.state.id ∧ f = { focus with state := s } := by
  refine ends_bind (P := fun r f ↦ r = .ok () ∧ ∃ s : State, s.id = focus.state.id ∧ f = { focus with state := s })
    (ends_updateState (Checked.ends_true_iff.2 fun s hs ↦ ?_)) ?_ fun _ _ h ↦ (nomatch h.1)
  · obtain ⟨c, -, hs⟩ := Checked.bind_eq_ok.1 hs
    obtain rfl := Checked.pure_eq_ok.1 hs
    exact ⟨rfl, { focus.state with constraints := c }, rfl, rfl⟩
  · rintro _ _ ⟨-, s, hid, rfl⟩
    refine ends_bind_ok rfl ?_
    split
    · rename_i seeds hseeds
      rw [if_pos]
      · exact ends_pure ⟨rfl, s, hid, rfl⟩
      · exact List.all_eq_true.2 (h seeds (hid ▸ hseeds))
    · exact ends_pure ⟨rfl, s, hid, rfl⟩

theorem ends_insertSide_booked {copy : State} {g : Focus σ} (hpending : focus.Pending copy g) :
    (do
      let maxDepth := (← executor).config.maxDepth
      if maxDepth ≠ 0 ∧ maxDepth ≤ (← state).depth then
        terminateEarly "max-depth exceeded"
        insertState copy
        let _ ← visit copy.id (terminateEarly "max-depth exceeded")
        return (none, none)
      insertState copy
      return (some .current, some (.forked copy.id)) : Exec σ Sides).Ends (fun _ ↦ True) g
        fun _ f ↦ focus.Booked f := by
  refine ends_bind_ok rfl (ends_bind_ok rfl ?_)
  split
  · refine ends_bind (ends_terminateWith _ _) (fun _ g' hended ↦ ends_bind_ok rfl ?_) fun _ _ h ↦ (nomatch h.1)
    -- the state ends before the copy is live, so both are written down at once
    have hinserted : focus.Booked
        ⟨{ g'.executor with states := g'.executor.states.insert copy.id copy }, g'.state⟩ := by
      obtain ⟨-, rfl | ⟨hgoing, solver, statistics, testCase, hstate, -, rfl⟩⟩ := hended
      · exact hpending.insert.booked
      · have hended : g.Writes [] [] [g.state.id] [testCase] (g.ended solver statistics
            (g.executor.cases.push testCase) g.executor.errors g.executor.reported) :=
          Focus.writes_ended hgoing solver statistics _ (by simp) (fun _ ↦ id) fun _ ↦ .inl
        rw [hpending.writes.id_eq] at hstate hended
        exact fun _ ↦ ⟨_, .reports hstate (hpending.writes.trans (hended.trans (Focus.writes_insert _ copy)))⟩
    have hend : (terminateEarly "max-depth exceeded" : Exec σ Unit).Stays ⟨.all, False⟩ False :=
      stays_terminateWith _ _
    refine ends_bind (P := fun _ f ↦ focus.Booked f)
      (ends_visit (fun _ ↦ hinserted) fun s hs ↦ (hend _).mono fun _ _ h ↦ ?_)
      (fun _ _ h ↦ ends_pure h) fun _ _ h ↦ h
    refine hinserted.trans (.visit hs ?_ h.1.booked)
    rw [Focus.getElem?_insert_state, if_pos rfl] at hs
    exact Option.some.inj hs ▸ rfl
  · exact ends_bind_ok rfl (ends_pure hpending.insert.booked)

theorem ends_bothSides_booked {child : State} {g : Focus σ} (hg : focus.Divided condition child g) :
    (do
      recordSide true internal
      addConstraint condition
      let (result, child) ← within child do
        recordSide false internal
        addConstraint condition.isZero
      MonadExcept.ofExcept result
      let maxDepth := (← executor).config.maxDepth
      if maxDepth ≠ 0 ∧ maxDepth ≤ (← state).depth then
        terminateEarly "max-depth exceeded"
        insertState child
        let _ ← visit child.id (terminateEarly "max-depth exceeded")
        return (none, none)
      insertState child
      return (some .current, some (.forked child.id)) : Exec σ Sides).Ends (fun _ ↦ True) g
        fun _ f ↦ focus.Booked f := by
  have hrecorded : ∀ (f : Focus σ) (side : Bool), (f.recorded side internal).executor = f.executor ∧
      (f.recorded side internal).state.id = f.state.id := by
    intro f side
    cases internal <;> exact ⟨rfl, rfl⟩
  refine ends_bind_ok (run_recordSide true internal) ?_
  obtain ⟨hexecutor, hid⟩ := hrecorded g true
  refine ends_bind (ends_addConstraint_led ?_) ?_ fun _ _ h ↦ (nomatch h.1)
  · rw [hexecutor, hid]
    exact hg.holds
  rintro _ _ ⟨-, s, hs, rfl⟩
  refine ends_bind (P := fun r f ↦ ∃ copy : State, r = .ok (.ok (), copy) ∧ copy.id = child.id ∧
    f = { g with state := s }) (ends_within (ends_bind_ok (run_recordSide false internal) ?_)) ?_ ?_
  · obtain ⟨hexecutor', hid'⟩ := hrecorded { (g.recorded true internal) with state := child } false
    refine (ends_addConstraint_led ?_).mono ?_
    · rw [hexecutor', hid']
      exact hexecutor ▸ hg.fails
    · rintro _ _ ⟨rfl, copy, hcopy, rfl⟩
      refine ⟨copy, rfl, hcopy.trans hid', ?_⟩
      rw [hexecutor', hexecutor]
  · rintro ⟨result, copy⟩ _ ⟨_, ⟨⟩, hcopy, rfl⟩
    refine ends_bind_ok rfl (ends_insertSide_booked ⟨hcopy.trans hg.id_eq, ?_⟩)
    exact hcopy ▸ hg.writes.trans (.of_state (hs.trans hid))
  · rintro _ _ ⟨_, ⟨⟩, -⟩

theorem ends_split_booked (hcond : condition.WellFormed) :
    (split condition internal).Ends (fun _ ↦ True) focus fun _ f ↦ focus.Booked f := by
  by_cases hfit : focus.executor.SeedsFit
  case neg => exact (ends_vacuous _ _).mono fun _ _ _ h ↦ absurd h hfit
  refine ends_bind_ok (f := focus.afterForks 1) rfl (ends_bind ends_spawn_pending ?_ fun _ _ h ↦ (nomatch h))
  rintro child f ⟨_, ⟨⟩, hspawned, hseeds⟩
  have hpending : focus.Pending child f := ⟨hspawned.id_eq, (focus.writes_afterForks 1).trans hspawned.writes⟩
  have hnone : f.executor.seeds[child.id]? = none := by
    rw [hseeds, hpending.id_eq, Option.eq_none_iff_forall_ne_some]
    exact fun seeds h ↦ Nat.lt_irrefl _ (hfit _ seeds h).1
  refine ends_bind_ok rfl (ends_bind_ok rfl ?_)
  dsimp only
  split
  · rename_i seeds hown
    obtain ⟨hlt, hfree⟩ := hfit focus.state.id seeds (hseeds ▸ hpending.writes.id_eq ▸ hown)
    have hholds : ∀ seed ∈ (seeds.partition (·.satisfies condition)).1,
        seed.assignment.free ∧ seed.satisfies condition := by
      intro seed hseed
      simp only [List.partition_eq_filter_filter, List.mem_filter] at hseed
      exact ⟨hfree seed hseed.1, hseed.2⟩
    have hfails : ∀ seed ∈ (seeds.partition (·.satisfies condition)).2,
        seed.assignment.free ∧ seed.satisfies condition.isZero := by
      intro seed hseed
      simp only [List.partition_eq_filter_filter, List.mem_filter] at hseed
      exact ⟨hfree seed hseed.1, Seed.satisfies_isZero (hfree seed hseed.1) hcond (by simpa using hseed.2)⟩
    have hdropped : focus.Divided condition child
        { f with executor := { f.executor with seeds := f.executor.seeds.erase f.state.id } } := by
      refine Focus.Pending.divided ⟨hpending.id_eq, hpending.writes.dropSeeds _⟩ ?_ ?_
      · simp
      · simp [Focus.getElem?_erase_state, hnone]
    refine ends_bind_ok rfl ?_
    split
    · split
      · exact ends_bothSides_booked hdropped
      · exact ends_bind_ok rfl (ends_bothSides_booked (hdropped.setCopy hlt (fun s hs ↦ (hfails s hs).1)
          fun s hs ↦ (hfails s hs).2))
    · have hset := hdropped.setOwn hlt (fun s hs ↦ (hholds s hs).1) fun s hs ↦ (hholds s hs).2
      refine ends_bind_ok rfl ?_
      split
      · exact ends_bothSides_booked hset
      · exact ends_bind_ok rfl (ends_bothSides_booked (hset.setCopy hlt (fun s hs ↦ (hfails s hs).1)
          fun s hs ↦ (hfails s hs).2))
  · rename_i hown
    exact ends_bothSides_booked (hpending.divided (Option.eq_none_iff_forall_ne_some.2 hown) hnone)

end Exec

end Symex
