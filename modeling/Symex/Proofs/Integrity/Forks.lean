import Symex.Proofs.Integrity.Works

namespace Symex

open Checked

variable {σ α β : Type} {o : Origin} {fatal : Prop} {sh : Shape} {todo : List Branch} {f g h : Focus σ}

namespace Exec

variable {x : Exec σ α} {R : α → Prop} {condition : Expr} {internal : Bool}

/-! ## Constraints and seeds -/

theorem still_seeds? : (seeds? : Exec σ _).Still fun _ ↦ True := fun g ↦
  ends_bind_ok rfl (ends_pure ⟨.refl g, fun _ _ ↦ trivial, nofun⟩)

theorem still_setSeeds (id : StateId) (seeds : List Seed) : (setSeeds id seeds : Exec σ Unit).Still fun _ ↦ True :=
  still_modifyExecutor fun _ ↦ .of_executor rfl rfl rfl rfl rfl rfl rfl rfl

theorem still_dropSeeds (id : StateId) : (dropSeeds id : Exec σ Unit).Still fun _ ↦ True :=
  still_modifyExecutor fun _ ↦ .of_executor rfl rfl rfl rfl rfl rfl rfl rfl

theorem still_patchSeeds (condition : Expr) : (patchSeeds condition : Exec σ Unit).Still fun _ ↦ True := by
  refine still_bind still_seeds? fun r _ ↦ ?_
  split
  · split
    · exact still_pure trivial
    · refine still_bind still_state fun s _ ↦
        still_bind (still_query fun c ↦ Solver.looks_initialValues c _) fun r _ ↦ ?_
      split
      · exact still_setSeeds _ _
      · exact still_pure trivial
  · exact still_pure trivial

theorem still_addConstraint (condition : Expr) : (addConstraint condition : Exec σ Unit).Still fun _ ↦ True :=
  still_bind (still_updateState fun s ↦ Checked.ends_bind (s.constraints.plain_add condition) fun _ _ ↦
    Checked.ends_pure ⟨rfl, rfl⟩) fun _ _ ↦ still_patchSeeds condition

theorem still_recordSide (side internal : Bool) : (recordSide side internal : Exec σ Unit).Still fun _ ↦ True := by
  unfold recordSide
  split
  · exact still_pure trivial
  · exact still_updateState fun s ↦ Checked.ends_pure ⟨rfl, rfl⟩

theorem still_takeSide (condition : Expr) (side : Bool) : (takeSide condition side : Exec σ _).Still fun _ ↦ True :=
  still_bind (still_addConstraint _) fun _ _ ↦ still_pure trivial

theorem still_forkInhibited : (forkInhibited : Exec σ Bool).Still fun _ ↦ True := fun g ↦
  ends_bind_ok rfl (ends_pure ⟨.refl g, fun _ _ ↦ trivial, nofun⟩)

theorem still_toConstant (e : Expr) : (toConstant e : Exec σ Expr).Still fun _ ↦ True := by
  unfold toConstant
  split
  · exact still_pure trivial
  · refine still_bind (still_query fun c ↦ Solver.looks_value c _) fun v _ ↦ ?_
    exact still_bind (still_lift (Expr.plain_mkEq e v)) fun c _ ↦ still_bind (still_addConstraint c) fun _ _ ↦
      still_pure trivial

theorem still_toUnique (e : Expr) : (toUnique e : Exec σ Expr).Still fun _ ↦ True := by
  unfold toUnique
  split
  · exact still_pure trivial
  · refine still_bind (still_ask fun c ↦ Solver.looks_value c _) fun r _ ↦ ?_
    split
    · exact still_pure trivial
    · refine still_bind (still_lift (Expr.plain_mkEq _ _)) fun c _ ↦
        still_bind (still_ask fun c' ↦ Solver.looks_mustBeTrue c' c) fun r _ ↦ ?_
      split <;> exact still_pure trivial

/-! ## Policies -/

theorem works_replaySide (validity : Validity) (hfatal : fatal) (hstart : sh = o.start) :
    (replaySide condition validity : Exec σ Validity).Works o fatal sh [.current] fun _ left ↦
      left = [.current] := by
  have hfail : ∀ e : ExecError, (fail e : Exec σ Validity).Works o fatal sh [.current] fun _ left ↦
      left = [.current] := by
    intro e f g hg
    obtain ⟨hshape, hkept, htrace⟩ := hg.own_eq (by simp)
    refine ends_fail (hg.fails (Focus.Still.refl g).toAlone (hshape ▸ htrace) fun _ ↦ ⟨hfatal, .inr ?_⟩)
    exact ⟨hshape.trans hstart, hshape ▸ hkept⟩
  have hpure : ∀ v, (pure v : Exec σ Validity).Works o fatal sh [.current] fun _ left ↦ left = [.current] :=
    fun _ ↦ works_pure rfl
  refine works_bind (still_executor.works) ?_
  rintro e _ ⟨-, rfl⟩
  split
  · exact hpure _
  · exact hfail _
  · refine works_bind (still_modifyExecutor fun _ ↦ .of_executor rfl rfl rfl rfl rfl rfl rfl rfl).works ?_
    rintro _ _ ⟨-, rfl⟩
    split
    · exact hfail _
    · exact hfail _
    · exact (still_takeSide condition _).works.mono id fun _ _ h ↦ h.2
    · exact hpure _

theorem still_followSeeds (condition : Expr) (seeds : List Seed) :
    (followSeeds condition seeds : Exec σ Validity).Still fun _ ↦ True := by
  unfold followSeeds
  dsimp only
  split
  · exact still_takeSide condition _
  · exact still_pure trivial

theorem works_restrict (validity : Validity) (hreplay : internal = false → fatal ∧ sh = o.start) :
    (restrict condition internal validity : Exec σ Validity).Works o fatal sh [.current] fun _ left ↦
      left = [.current] := by
  have hstill : ∀ {x : Exec σ Validity}, x.Still (fun _ ↦ True) → x.Works o fatal sh [.current] fun _ left ↦
      left = [.current] := fun hx ↦ hx.works.mono id fun _ _ h ↦ h.2
  refine works_bind still_executor.works ?_
  rintro e _ ⟨-, rfl⟩
  refine works_bind still_seeds?.works ?_
  rintro seeds _ ⟨-, rfl⟩
  split
  · rename_i h
    have hinternal : internal = false := by simpa using (Bool.and_eq_true_iff.1 (Bool.and_eq_true_iff.1 h).1).1
    obtain ⟨hfatal, hstart⟩ := hreplay hinternal
    exact works_replaySide validity hfatal hstart
  · split
    · split
      · refine works_bind still_state.works ?_
        rintro s _ ⟨-, rfl⟩
        split
        · exact hstill (still_followSeeds condition _)
        · exact works_pure rfl
      · refine works_bind still_forkInhibited.works ?_
        rintro inhibited _ ⟨-, rfl⟩
        split
        · refine works_bind (still_draw (R := fun _ ↦ True) fun _ ↦ trivial).works ?_
          rintro coin _ ⟨-, rfl⟩
          exact hstill (still_takeSide condition _)
        · exact works_pure rfl
    · exact works_pure rfl

end Exec

/-! ## Copies -/

/-- The state `child` is like the state that is worked on, and not among the live states yet. -/
structure Focus.Waits (sh : Shape) (todo : List Branch) (child : State) (f g : Focus σ) : Prop where
  shape_eq : child.shape = sh
  ge : f.executor.nextStateId ≤ child.id
  lt : child.id < g.executor.nextStateId
  ne : child.id ≠ g.state.id
  notMem : .forked child.id ∉ todo

theorem Focus.Waits.alone {child : State} (hc : Focus.Waits sh todo child f g) (hh : g.Alone h) :
    Focus.Waits sh todo child f h where
  shape_eq := hc.shape_eq
  ge := hc.ge
  lt := hh.next_eq ▸ hc.lt
  ne := hh.id_eq ▸ hc.ne
  notMem := hc.notMem

theorem Stand.claim (hg : Stand o sh todo f g) (added : List StateId) (tree : ProcessTree) :
    Stand o sh todo f ⟨{ g.executor with
      nextStateId := g.executor.nextStateId + 1, added, tree }, g.state⟩ := by
  have ht := hg.reaches.succeeds.tidy
  refine ⟨⟨⟨⟨fun id s hs ↦ ⟨(ht.named id s hs).1, Nat.lt_succ_of_lt (ht.named id s hs).2⟩,
    Nat.lt_succ_of_lt ht.own_lt, ht.own_none, fun id hid ↦ Nat.lt_succ_of_lt (ht.removed_lt id hid)⟩,
    hg.reaches.succeeds.id_eq, hg.reaches.succeeds.config_eq, Nat.le_succ_of_le hg.reaches.succeeds.next_le,
    hg.reaches.succeeds.removed_sub, hg.reaches.succeeds.old⟩, hg.reaches.program_eq, hg.reaches.location_eq,
    hg.reaches.constants_eq, hg.reaches.bound_le, hg.reaches.base, hg.reaches.old, ?_, fun id hid s hs ↦ ?_⟩,
    hg.nodup, fun id hid ↦ ⟨(hg.fresh id hid).1, Nat.lt_succ_of_lt (hg.fresh id hid).2⟩⟩
  · exact hg.reaches.own.mono (Nat.le_refl _) (fun hgoing ↦ hgoing) .rfl
  · exact (hg.reaches.new id hid s hs).mono (Nat.le_refl _) (fun hgoing ↦ hgoing) .rfl

theorem Stand.insert {child : State} (hg : Stand o sh todo f g) (hc : Focus.Waits sh todo child f g)
    (hkept : sh.Kept o.program g.bound) (htrace : sh.Traceable o.program) :
    Stand o sh (.forked child.id :: todo) f
      ⟨{ g.executor with states := g.executor.states.insert child.id child }, g.state⟩ := by
  have ht := hg.reaches.succeeds.tidy
  have hmem : ∀ {id s}, (g.executor.states.insert child.id child)[id]? = some s →
      child.id = id ∧ child = s ∨ child.id ≠ id ∧ g.executor.states[id]? = some s := by
    intro id s hs
    rw [Focus.getElem?_insert_state] at hs
    split at hs
    · exact .inl ⟨‹_›, Option.some.inj hs⟩
    · exact .inr ⟨‹_›, hs⟩
  refine ⟨⟨⟨⟨fun id s hs ↦ ?_, ht.own_lt, ?_, ht.removed_lt⟩, hg.reaches.succeeds.id_eq,
    hg.reaches.succeeds.config_eq, hg.reaches.succeeds.next_le, hg.reaches.succeeds.removed_sub,
    fun id hlt hnone ↦ ?_⟩, hg.reaches.program_eq, hg.reaches.location_eq, hg.reaches.constants_eq,
    hg.reaches.bound_le, hg.reaches.base, fun id hlt s hs ↦ ?_, ?_, fun id hid s hs ↦ ?_⟩,
    List.nodup_cons.2 ⟨hc.notMem, hg.nodup⟩, fun id hid ↦ ?_⟩
  · obtain ⟨rfl, rfl⟩ | ⟨-, hs⟩ := hmem hs
    · exact ⟨rfl, hc.lt⟩
    · exact ht.named id s hs
  · dsimp only
    rw [Focus.getElem?_insert_state, if_neg hc.ne]
    exact ht.own_none
  · have hne : child.id ≠ id := fun heq ↦ Nat.not_lt.2 hc.ge (heq ▸ hlt)
    dsimp only
    rw [Focus.getElem?_insert_state, if_neg hne]
    exact hg.reaches.succeeds.old id hlt hnone
  · obtain ⟨rfl, -⟩ | ⟨-, hs⟩ := hmem hs
    · exact absurd hlt (Nat.not_lt.2 hc.ge)
    · exact hg.reaches.old id hlt s hs
  · exact hg.reaches.own.mono (Nat.le_refl _) (fun hgoing ↦ hgoing) (by simp)
  · obtain ⟨rfl, rfl⟩ | ⟨hne, hs⟩ := hmem hs
    · rw [Focus.Leaves, if_pos (by simp)]
      exact ⟨hc.shape_eq, hkept, htrace⟩
    · refine (hg.reaches.new id hid s hs).mono (Nat.le_refl _) (fun hgoing ↦ hgoing) ?_
      simp [hne.symm]
  · obtain heq | hid := List.mem_cons.1 hid
    · obtain rfl := Branch.forked.inj heq
      exact ⟨hc.ge, hc.lt⟩
    · exact hg.fresh id hid

namespace Exec

theorem found_spawn (hg : Stand o sh todo f g) (hmem : .current ∈ todo) :
    (spawn : Exec σ State).Found g fun r h ↦ ∃ child, r = .ok child ∧ Stand o sh todo f h ∧
      Focus.Waits sh todo child f h := by
  obtain ⟨hshape, -, -⟩ := hg.own_eq hmem
  have hwaits : ∀ {child : State} {h : Focus σ}, Stand o sh todo f h → child.id = g.executor.nextStateId →
      h.executor.nextStateId = g.executor.nextStateId + 1 → child.shape = sh →
      Stand o sh todo f h ∧ Focus.Waits sh todo child f h := by
    intro child h hh hid hnext hshape
    refine ⟨hh, hshape, hid ▸ hg.reaches.succeeds.next_le, ?_, ?_, fun hmem ↦ ?_⟩
    · rw [hid, hnext]
      exact Nat.lt_succ_self _
    · rw [hid, hh.reaches.succeeds.id_eq, ← hg.reaches.succeeds.id_eq]
      exact (Nat.ne_of_lt hg.reaches.succeeds.tidy.own_lt).symm
    · exact Nat.lt_irrefl _ (hid ▸ (hg.fresh _ hmem).2)
  refine ends_bind_ok rfl ?_
  dsimp only
  split
  · refine ends_bind_ok rfl (ends_pure ⟨_, rfl, ?_⟩)
    exact hwaits ((hg.claim _ g.executor.tree).rests (Focus.Still.toRests (.of_state rfl rfl))) rfl rfl hshape
  · refine ends_lift_bind ((ProcessTree.ordinary_split _ _ _ _).mono fun ⟨⟨left, right⟩, tree⟩ _ ↦ ?_)
    refine ends_bind_ok rfl (ends_pure ⟨_, rfl, ?_⟩)
    exact hwaits ((hg.claim _ tree).rests (Focus.Still.toRests (.of_state rfl rfl))) rfl rfl hshape

/-! ## Two sides -/

theorem Still.found_bind {k : α → Exec σ β} {Q : Except PathError β → Focus σ → Prop} (hx : x.Still R)
    (hg : Stand o sh [.current] f g) (hok : ∀ a h, R a → g.Still h → (k a).Found h Q)
    (herr : ∀ e h, Fails o fatal e f h → Q (.error e) h) : (x >>= k).Found g Q := by
  obtain ⟨hshape, -, htrace⟩ := hg.own_eq (by simp)
  refine ends_bind (hx g) (fun a h hh ↦ hok a h (hh.2.1 a rfl) hh.1) fun e h hh ↦ herr e h ?_
  refine hg.fails hh.1.toAlone ?_ fun he ↦ nomatch he.symm.trans (hh.2.2 e rfl)
  rw [hh.1.shape_eq, hshape]
  exact htrace

theorem works_visit_terminateWith {id : StateId} (termination : Termination) (details : Option String) :
    (visit id (terminateWith termination details) : Exec σ _).Works o fatal sh (.forked id :: todo)
      fun _ left ↦ left = todo := fun f g hg ↦
  ends_visit (fun hnone ↦ ⟨todo, rfl, hg.absent hnone⟩) fun s hs ↦ by
    have hstart := hg.start_forked hs
    refine Ends.mono (found_quits (quits_terminateWith termination details) hstart
      (found_terminateWith termination details)) ?_
    rintro _ h ⟨rfl, hrests, hend⟩
    have hend : Stand o sh [] _ h := hstart.finish hrests.toAlone (fun hgoing ↦ (hend hgoing).elim) sh
    exact ⟨todo, rfl, hg.join_forked hs hend⟩

theorem found_insertSide {child : State} (hg : Stand o sh [.current] f g)
    (hc : Focus.Waits sh [.current] child f g) :
    (do
      let maxDepth := (← executor).config.maxDepth
      if maxDepth ≠ 0 ∧ maxDepth ≤ (← state).depth then
        terminateEarly "max-depth exceeded"
        insertState child
        let _ ← visit child.id (terminateEarly "max-depth exceeded")
        return (none, none)
      insertState child
      return (some .current, some (.forked child.id)) : Exec σ Sides).Found g
        (Ending o fatal sh (fun sides left ↦ left = sides.1.toList ++ sides.2.toList) f) := by
  obtain ⟨-, hkept, htrace⟩ := hg.own_eq (by simp)
  refine ends_bind_ok rfl (ends_bind_ok rfl ?_)
  split
  · refine ends_bind (found_quits (quits_terminateWith _ _) hg (found_terminateWith _ _)) ?_ ?_
    · rintro _ h ⟨-, hrests, hend⟩
      have hh := hg.finish hrests.toAlone (fun hgoing ↦ (hend hgoing).elim) sh
      have hinsert := hh.insert { hc.alone hrests.toAlone with notMem := by simp }
        (hkept.mono hrests.bound_le) htrace
      refine ends_bind_ok rfl (ends_bind (works_visit_terminateWith _ _ _ _ hinsert) ?_ fun _ _ he ↦ he)
      rintro _ k ⟨_, rfl, hk⟩
      exact ends_pure ⟨[], rfl, hk⟩
    · rintro _ _ ⟨⟨⟩, -⟩
  · exact ends_bind_ok rfl (ends_pure ⟨_, rfl, (hg.insert hc hkept htrace).perm (.swap _ _ _)⟩)

theorem found_bothSides {child : State} (hg : Stand o sh [.current] f g)
    (hc : Focus.Waits sh [.current] child f g) (h₀ : g.Still h) :
    (do
      recordSide true internal
      addConstraint condition
      let (result, child) ← within child do
        recordSide false internal
        addConstraint condition.isZero
      MonadExcept.ofExcept result
      let maxDepth := (← executor).config.maxDepth
      if maxDepth ≠ 0 ∧ maxDepth ≤ (← state).depth then
        terminateEarly "max-depth exceeded"
        insertState child
        let _ ← visit child.id (terminateEarly "max-depth exceeded")
        return (none, none)
      insertState child
      return (some .current, some (.forked child.id)) : Exec σ Sides).Found h
        (Ending o fatal sh (fun sides left ↦ left = sides.1.toList ++ sides.2.toList) f) := by
  have hg₀ := hg.rests h₀.toRests
  refine Still.found_bind (still_recordSide true internal) hg₀ (fun _ g₁ _ h₁ ↦ ?_) fun _ _ he ↦ he
  have hg₁ := hg₀.rests h₁.toRests
  refine Still.found_bind (still_addConstraint condition) hg₁ (fun _ g₂ _ h₂ ↦ ?_) fun _ _ he ↦ he
  have hg₂ := hg₁.rests h₂.toRests
  have hc₂ := ((hc.alone h₀.toAlone).alone h₁.toAlone).alone h₂.toAlone
  have hside : (do
      recordSide false internal
      addConstraint condition.isZero : Exec σ Unit).Still fun _ ↦ True :=
    still_bind (still_recordSide false internal) fun _ _ ↦ still_addConstraint _
  -- the copy is worked on in between, and then the state goes on as it was
  refine ends_bind (P := fun r h ↦ ∃ result copy, r = .ok (result, copy) ∧ g₂.Still h ∧ copy.id = child.id ∧
    copy.shape = child.shape ∧ ∀ e, result = .error e → e.payload.isFatal = false)
    (ends_within ((hside ⟨g₂.executor, child⟩).mono fun r h hr ↦ ?_)) ?_ ?_
  · refine ⟨r, h.state, rfl, ?_, hr.1.id_eq, hr.1.shape_eq, hr.2.2⟩
    exact ⟨⟨⟨hr.1.states_eq, hr.1.next_eq, hr.1.program_eq, hr.1.location_eq, hr.1.constants_eq, hr.1.config_eq,
      hr.1.bound_le, rfl, hr.1.removed_sub, fun id hid ↦ .inl (hr.1.removed_eq ▸ hid)⟩, rfl⟩, hr.1.removed_eq⟩
  · rintro ⟨result, copy⟩ g₃ ⟨_, _, ⟨⟩, h₃, hid, hshape, hresult⟩
    have hc₃ : Focus.Waits sh [.current] copy f g₃ := by
      have hc₃ := hc₂.alone h₃.toAlone
      exact ⟨hshape.trans hc₃.shape_eq, hid ▸ hc₃.ge, hid ▸ hc₃.lt, hid ▸ hc₃.ne, hid ▸ hc₃.notMem⟩
    have hg₃ := hg₂.rests h₃.toRests
    refine Still.found_bind (still_ofExcept (R := fun _ ↦ True) (fun _ _ ↦ trivial) hresult) hg₃
      (fun _ g₄ _ h₄ ↦ ?_) fun _ _ he ↦ he
    exact found_insertSide (hg₃.rests h₄.toRests) (hc₃.alone h₄.toAlone)
  · rintro _ _ ⟨_, _, ⟨⟩, -⟩

theorem works_split : (split condition internal : Exec σ Sides).Works o fatal sh [.current] fun sides left ↦
    left = sides.1.toList ++ sides.2.toList := by
  intro f g hg
  refine ends_bind_ok rfl ?_
  have hg₀ := hg.rests (Focus.Still.toRests (.of_executor (e := { g.executor with
    statistics.forks := g.executor.statistics.forks + 1 }) rfl rfl rfl rfl rfl rfl rfl rfl))
  refine ends_bind (found_spawn hg₀ (by simp)) ?_ ?_
  · rintro child h ⟨_, ⟨⟩, hh, hc⟩
    refine ends_bind_ok rfl (ends_bind_ok rfl ?_)
    dsimp only
    split
    · refine ends_bind_ok rfl ?_
      split
      · split
        · refine found_bothSides hh hc ?_
          exact .of_executor rfl rfl rfl rfl rfl rfl rfl rfl
        · refine ends_bind_ok rfl ?_
          refine found_bothSides hh hc ?_
          exact .of_executor rfl rfl rfl rfl rfl rfl rfl rfl
      · refine ends_bind_ok rfl ?_
        split
        · refine found_bothSides hh hc ?_
          exact .of_executor rfl rfl rfl rfl rfl rfl rfl rfl
        · refine ends_bind_ok rfl ?_
          refine found_bothSides hh hc ?_
          exact .of_executor rfl rfl rfl rfl rfl rfl rfl rfl
    · exact found_bothSides hh hc (.refl h)
  · rintro _ _ ⟨_, ⟨⟩, -⟩

theorem works_fork (condition : Expr) (internal : Bool) (hreplay : internal = false → fatal ∧ sh = o.start) :
    (fork condition internal : Exec σ Sides).Works o fatal sh [.current] fun sides left ↦
      left = sides.1.toList ++ sides.2.toList := by
  refine works_bind (still_query fun c ↦ Solver.looks_evaluate c condition).works ?_
  rintro validity _ ⟨-, rfl⟩
  refine works_bind (works_restrict validity hreplay) ?_
  rintro validity _ rfl
  split
  · refine works_bind (still_recordSide true internal).works ?_
    rintro _ _ ⟨-, rfl⟩
    exact works_pure rfl
  · refine works_bind (still_recordSide false internal).works ?_
    rintro _ _ ⟨-, rfl⟩
    exact works_pure rfl
  · exact works_split

theorem works_forkOn {b : Branch} (condition : Expr) :
    (forkOn b condition true : Exec σ Sides).Works o False sh (b :: todo) fun sides left ↦
      left = sides.1.toList ++ sides.2.toList ++ todo := by
  refine works_bind (works_onBranch (works_fork condition true nofun) nofun) ?_
  rintro _ _ (⟨rfl, rfl⟩ | ⟨⟨holds, fails⟩, _, rfl, rfl, rfl⟩)
  · exact works_pure rfl
  · refine works_pure ?_
    cases holds <;> cases fails <;> rfl

/-! ## Several states -/

theorem works_duplicate {b : Branch} (hb : b ∈ todo) (hcurrent : .current ∈ todo) :
    (duplicate b : Exec σ Branch).Works o fatal sh todo fun b' left ↦ left = b' :: todo := by
  intro f g hg
  have hinsert : ∀ {child : State} {h : Focus σ}, Stand o sh todo f h → Focus.Waits sh todo child f h → (do
      insertState child
      return .forked child.id : Exec σ Branch).Found h
        (Ending o fatal sh (fun b' left ↦ left = b' :: todo) f) := by
    intro child h hh hc
    obtain ⟨-, hkept, htrace⟩ := hh.own_eq hcurrent
    exact ends_bind_ok rfl (ends_pure ⟨_, rfl, hh.insert hc hkept htrace⟩)
  have hspawn : ∀ {g : Focus σ}, Stand o sh todo f g → (do
      let child ← spawn
      insertState child
      return .forked child.id : Exec σ Branch).Found g
        (Ending o fatal sh (fun b' left ↦ left = b' :: todo) f) := by
    intro g hg
    refine ends_bind (found_spawn hg hcurrent) ?_ ?_
    · rintro _ h ⟨child, ⟨⟩, hh, hc⟩
      exact hinsert hh hc
    · rintro _ _ ⟨_, ⟨⟩, -⟩
  cases b with
  | current => exact hspawn hg
  | forked id =>
    have hperm := List.perm_cons_erase hb
    have hg' := hg.perm hperm.symm
    refine ends_bind (P := fun r h ↦ r = .ok none ∧ h = g ∨ ∃ child, r = .ok (some child) ∧
      Stand o sh todo f h ∧ Focus.Waits sh todo child f h) (ends_visit (fun _ ↦ .inl ⟨rfl, rfl⟩) fun s hs ↦ ?_)
      ?_ ?_
    · refine Ends.mono (found_spawn (hg'.start_forked hs) (by simp)) ?_
      rintro _ h ⟨child, rfl, hh, hc⟩
      have ht := hg.reaches.succeeds.tidy
      refine .inr ⟨child, rfl, (hg'.join_forked hs hh).perm hperm, hc.shape_eq, ?_, hc.lt, fun heq ↦ ?_, fun hmem ↦ ?_⟩
      · exact Nat.le_trans hg.reaches.succeeds.next_le hc.ge
      · exact Nat.not_lt.2 hc.ge (heq ▸ ht.own_lt)
      · exact Nat.not_lt.2 hc.ge (hg.fresh _ hmem).2
    · rintro _ h (⟨⟨⟩, rfl⟩ | ⟨child, ⟨⟩, hh, hc⟩)
      · exact hspawn hg
      · exact ends_bind_ok rfl (hinsert hh hc)
    · rintro _ _ (⟨⟨⟩, -⟩ | ⟨_, ⟨⟩, -⟩)

theorem works_multiply {l : List Nat} {all : Array Branch} (hcurrent : .current ∈ all.toList)
    (hperm : todo.Perm all.toList) :
    (l.foldlM (fun (all : Array Branch) i ↦ do
      let parent ← draw (·.index (i + 1))
      return all.push (← duplicate (all[parent]?.getD .current))) all : Exec σ _).Works o fatal sh todo
        fun all' left ↦ left.Perm all'.toList ∧ all'.size = all.size + l.length := by
  induction l generalizing all todo with
  | nil => exact works_pure ⟨hperm, rfl⟩
  | cons i l ih =>
    rw [List.foldlM_cons]
    have hmem : ∀ parent : Nat, all[parent]?.getD .current ∈ todo := by
      intro parent
      rw [hperm.mem_iff]
      cases hp : all[parent]? with
      | none => exact hcurrent
      | some b => exact Array.mem_def.1 (Array.mem_of_getElem? hp)
    refine works_bind (Q := fun all' left ↦ .current ∈ all'.toList ∧ left.Perm all'.toList ∧
      all'.size = all.size + 1) ?_ fun all' left ⟨hcurrent', hperm', hsize⟩ ↦ ?_
    · refine works_bind ((still_draw (R := fun _ ↦ True) fun _ ↦ trivial).works_of_total (total_draw _)) ?_
      rintro parent _ ⟨-, rfl⟩
      refine works_bind (works_duplicate (hmem parent) (hperm.mem_iff.2 hcurrent)) ?_
      rintro b _ rfl
      refine works_pure ⟨?_, ?_, Array.size_push _⟩
      · rw [Array.toList_push]
        exact List.mem_append_left _ hcurrent
      · rw [Array.toList_push]
        exact (hperm.cons b).trans (List.perm_append_singleton b _).symm
    · refine (ih hcurrent' hperm').mono id fun all'' left h ↦ ⟨h.1, ?_⟩
      rw [h.2, hsize, List.length_cons]
      omega

theorem filterMap_chosen {count chosen : Nat} (h : chosen < count) (b : Branch) :
    ((List.range count).map fun i ↦ if i = chosen then some b else none).filterMap id = [b] := by
  induction count with
  | zero => omega
  | succ n ih =>
    rw [List.range_succ, List.map_append, List.filterMap_append]
    by_cases heq : chosen = n
    · subst heq
      have hnone : ((List.range chosen).map fun i ↦ if i = chosen then some b else none).filterMap id = [] := by
        rw [List.filterMap_eq_nil_iff]
        simp only [List.mem_map, List.mem_range]
        rintro _ ⟨i, hi, rfl⟩
        exact if_neg (Nat.ne_of_lt hi)
      rw [hnone]
      simp
    · rw [ih (by omega)]
      simp [Ne.symm heq]

theorem works_arms {count : Nat} (hcount : 0 < count) :
    (arms count : Exec σ _).Works o fatal sh [.current] fun arms left ↦
      arms.length = count ∧ left.Perm (arms.filterMap id) := by
  refine works_bind still_forkInhibited.works ?_
  rintro inhibited _ ⟨-, rfl⟩
  split
  · refine works_bind (still_draw (R := (· < count)) fun rng ↦ Rng.index_lt rng hcount).works ?_
    rintro chosen _ ⟨hchosen, rfl⟩
    exact works_pure ⟨by simp, by rw [filterMap_chosen hchosen]⟩
  · refine works_bind (still_modifyExecutor fun _ ↦ .of_executor rfl rfl rfl rfl rfl rfl rfl rfl).works ?_
    rintro _ _ ⟨-, rfl⟩
    refine works_bind (works_multiply (by simp) (by simp)) ?_
    rintro all left ⟨hperm, hsize⟩
    refine works_pure ⟨?_, ?_⟩
    · rw [List.length_map, Array.length_toList, hsize, List.length_range]
      simp only [List.size_toArray, List.length_singleton]
      omega
    · simpa [List.filterMap_map] using hperm

/-! ## Seeds of several states -/

theorem works_seedArm (arm : Option Branch) (seeds : List Seed) :
    (seedArm arm seeds : Exec σ _).Works o fatal sh (arm.toList ++ todo) fun out left ↦
      left = out.toList ++ todo := by
  cases arm with
  | none => exact works_pure rfl
  | some b =>
    unfold seedArm
    dsimp only
    split
    · refine works_bind works_executor ?_
      rintro e _ ⟨-, -, rfl⟩
      split
      · have hend : (terminateEarly "Unseeded path during replay" : Exec σ Unit).Finishes o False sh
            [.current] := finishes_terminateWith _ _
        refine works_bind ((works_onBranch hend nofun).mono nofun fun _ _ h ↦ h) ?_
        rintro _ _ (⟨-, rfl⟩ | ⟨_, _, -, rfl, rfl⟩)
        · exact works_pure rfl
        · exact works_pure rfl
      · exact works_pure rfl
    · have hset : ∀ id : StateId, (do
          setSeeds id seeds
          return some b : Exec σ _).Works o fatal sh ((some b).toList ++ todo) fun out left ↦
            left = out.toList ++ todo := by
        intro id
        refine works_bind ((still_setSeeds id seeds).works_of_total (total_modifyExecutor _)) ?_
        rintro _ _ ⟨-, rfl⟩
        exact works_pure rfl
      split
      · refine works_bind (still_state.works_of_total total_state) ?_
        rintro s _ ⟨-, rfl⟩
        exact works_bind (works_pure (Q := fun _ left ↦ left = _) rfl) fun _ _ h ↦ h ▸ hset _
      · exact works_bind (works_pure (Q := fun _ left ↦ left = _) rfl) fun _ _ h ↦ h ▸ hset _

theorem works_seedArms (conditions : List Expr) (arms : List (Option Branch)) :
    (seedArms conditions arms : Exec σ _).Works o fatal sh (arms.filterMap id) fun outs left ↦
      outs.length = arms.length ∧ left.Perm (outs.filterMap id) := by
  have heach : ∀ (pairs : List (Option Branch × Nat)) (seeds : Option Branch × Nat → List Seed)
      (todo : List Branch), (pairs.mapM fun p ↦ seedArm p.1 (seeds p) : Exec σ _).Works o fatal sh
        ((pairs.map (·.1)).filterMap id ++ todo) fun outs left ↦
          outs.length = pairs.length ∧ left.Perm (outs.filterMap id ++ todo) := by
    intro pairs seeds
    induction pairs with
    | nil => exact fun todo ↦ works_pure ⟨rfl, .rfl⟩
    | cons p pairs ih =>
      intro todo
      rw [List.mapM_cons]
      have hsplit : ∀ (out : Option Branch) (l : List (Option Branch)) (todo : List Branch),
          (out :: l).filterMap id ++ todo = out.toList ++ (l.filterMap id ++ todo) := by
        intro out l todo
        cases out <;> rfl
      rw [List.map_cons, hsplit]
      refine works_bind (works_seedArm p.1 (seeds p)) ?_
      rintro out _ rfl
      -- what is left of this arm waits until the others are done
      have hlater : (out.toList ++ ((pairs.map (·.1)).filterMap id ++ todo)).Perm
          ((pairs.map (·.1)).filterMap id ++ (out.toList ++ todo)) := by
        rw [← List.append_assoc, ← List.append_assoc]
        exact List.perm_append_comm.append_right todo
      refine works_bind ((ih (out.toList ++ todo)).perm hlater.symm) fun outs left hleft ↦
        works_pure ⟨?_, hleft.2.trans ?_⟩
      · rw [List.length_cons, List.length_cons, hleft.1]
      · rw [hsplit, ← List.append_assoc, ← List.append_assoc]
        exact List.perm_append_comm.append_right todo
  have hplace : ∀ seed, (armOf conditions seed : Exec σ Nat).Still (fun _ ↦ True) ∧
      (armOf conditions seed : Exec σ Nat).Total := by
    intro seed
    unfold armOf
    split
    · exact ⟨still_pure trivial, total_pure _⟩
    · exact ⟨still_draw fun _ ↦ trivial, total_draw _⟩
  refine works_bind (still_seeds?.works_of_total fun g ↦ ends_bind_ok rfl (yields_pure trivial)) ?_
  rintro r _ ⟨-, rfl⟩
  split
  · exact works_pure ⟨rfl, .rfl⟩
  · rename_i seeds
    refine works_bind (still_state.works_of_total total_state) ?_
    rintro s _ ⟨-, rfl⟩
    refine works_bind ((still_dropSeeds _).works_of_total (total_modifyExecutor _)) ?_
    rintro _ _ ⟨-, rfl⟩
    refine works_bind (Still.works_of_total (R := fun _ ↦ True) (still_mapM fun seed _ ↦
      still_bind (hplace seed).1 fun _ _ ↦ still_pure trivial) (total_mapM fun seed _ ↦
        total_bind (hplace seed).2 fun _ ↦ total_pure _)) ?_
    rintro placed _ ⟨-, rfl⟩
    have hpairs := heach arms.zipIdx
      (fun p ↦ (placed.filter (·.1 = p.2)).map (·.2)) []
    simp only [List.zipIdx_map_fst, List.append_nil, List.length_zipIdx] at hpairs
    exact hpairs

/-! ## Divisions -/

theorem works_onSide_still {side : Option Branch} {x : Exec σ Unit} (hx : x.Still fun _ ↦ True)
    (hmem : ∀ b, side = some b → b ∈ todo) :
    (onSide side x).Works o fatal sh todo fun _ left ↦ left = todo := by
  cases side with
  | none => exact works_pure rfl
  | some b =>
    intro f g hg
    have hperm := List.perm_cons_erase (hmem b rfl)
    have hside : (onSide (some b) x).Works o fatal sh (b :: todo.erase b) fun _ left ↦
        left = b :: todo.erase b :=
      works_bind (works_onBranch_still hx) (by rintro _ _ rfl; exact works_pure rfl)
    refine (hside f g (hg.perm hperm.symm)).mono fun r h hr ↦ ?_
    cases r with
    | ok _ =>
      obtain ⟨_, rfl, hh⟩ := hr
      exact ⟨todo, rfl, hh.perm hperm⟩
    | error e => exact hr

theorem works_addConstraints {left : List Branch} {pairs : List (Option Branch × Expr)}
    (hpairs : ∀ p ∈ pairs, ∀ b, p.1 = some b → b ∈ left) :
    (forIn pairs PUnit.unit fun (arm, condition) _ ↦ do
      onSide arm (addConstraint condition)
      pure (ForInStep.yield PUnit.unit) : Exec σ PUnit).Works o fatal sh left fun _ left' ↦ left' = left := by
  induction pairs with
  | nil => exact works_pure rfl
  | cons p pairs ih =>
    rw [List.forall_mem_cons] at hpairs
    rw [List.forIn_cons]
    refine works_bind (Q := fun r left' ↦ r = ForInStep.yield PUnit.unit ∧ left' = left) ?_ ?_
    · refine works_bind (works_onSide_still (still_addConstraint p.2) hpairs.1) ?_
      rintro _ _ rfl
      exact works_pure ⟨rfl, rfl⟩
    · rintro _ _ ⟨rfl, rfl⟩
      exact ih hpairs.2

theorem works_branch {conditions : List Expr} (hne : conditions ≠ []) :
    (branch conditions : Exec σ _).Works o fatal sh [.current] fun arms left ↦
      arms.length = conditions.length ∧ left.Perm (arms.filterMap id) := by
  unfold branch
  rw [if_neg (by simpa using hne)]
  refine works_bind (works_arms (List.length_pos_iff.2 hne)) fun arms left ⟨hlength, hperm⟩ ↦ ?_
  refine works_bind ((works_seedArms conditions arms).perm hperm.symm) fun outs left ⟨hlength', hperm'⟩ ↦ ?_
  refine works_bind (works_addConstraints fun p hp b hb ↦ ?_) ?_
  · rw [hperm'.mem_iff, List.mem_filterMap]
    exact ⟨p.1, (List.of_mem_zip hp).1, hb⟩
  · rintro _ _ rfl
    exact works_pure ⟨hlength'.trans hlength, hperm'⟩

theorem filterMap_fst_zip {γ : Type} {arms : List (Option Branch)} {l : List γ}
    (h : arms.length = l.length) : (arms.zip l).filterMap (·.1) = arms.filterMap id := by
  rw [← Function.id_comp (Prod.fst : Option Branch × γ → Option Branch), ← List.filterMap_map,
    List.map_fst_zip (Nat.le_of_eq h)]

end Exec

end Symex
