import Symex.Proofs.Lineage.Accounts
import Symex.Proofs.Lineage.Results

namespace Symex

open Checked

variable {σ α β : Type} {I : Trust} {twins lost needs gives quiet : Prop}

theorem ConstraintSet.Valid.of_add {c c' : ConstraintSet} {e : Expr} (hc : c.Valid) (he : e.WellFormed)
    (h : c.add e = .ok c') : c'.Valid ∧ ∀ a, I.Solves a c' → I.Solves a c ∧ a.val e ≠ 0 := by
  have hadded := added_of_addWithin hc he h
  refine ⟨hadded.valid, fun a ha ↦ ?_⟩
  obtain ⟨hold, hnew⟩ := (hadded.holds_iff ha.free).1 ha.holds
  exact ⟨⟨ha.possible, hold⟩, (Assignment.holds_iff_val ha.free).1 (hnew e (by simp))⟩

namespace Focus

variable {f g h : Focus σ}

theorem executor_recorded (f : Focus σ) {side internal : Bool} :
    (f.recorded side internal).executor = f.executor := by
  cases internal <;> rfl

theorem Own.recorded (h : f.Own I g) {side internal : Bool} (hfree : internal = true ∨ f.executor.Unled) :
    f.Own I (g.recorded side internal) := by
  cases internal with
  | true => exact h
  | false =>
    exact ⟨h.id_eq, ⟨h.part.valid, .inl (hfree.resolve_left nofun)⟩, h.narrower, h.states_eq, h.next_le,
      h.removed, h.removed_sub, h.cases, h.steady⟩

theorem Solo.recorded (h : f.Solo I g) {side internal : Bool} (hfree : internal = true ∨ f.executor.Unled) :
    f.Solo I (g.recorded side internal) :=
  ⟨h.toOwn.recorded hfree, h.booked.trans (g.writes_recorded side internal).booked⟩

theorem Own.within {child : State} (hg : f.Own I g) (hchild : f.Part child)
    (hnew : f.executor.nextStateId < g.executor.nextStateId) (hh : Own I { g with state := child } h)
    (hremoved : h.executor.removed = g.executor.removed) : f.Own I { h with state := g.state } where
  id_eq := hg.id_eq
  part := hg.part
  narrower := hg.narrower
  states_eq id := (hh.states_eq id).trans (hg.states_eq id)
  next_le := Nat.le_trans hg.next_le hh.next_le
  removed id hid := hg.removed id (hremoved ▸ hid)
  removed_sub id hid := hh.removed_sub id (hg.removed_sub id hid)
  cases c hc := by
    have hne : h.executor.nextStateId ≠ f.executor.nextStateId := Nat.ne_of_gt (Nat.lt_of_lt_of_le hnew hh.next_le)
    obtain hc | hu | ⟨hpath, -⟩ := hh.cases c hc
    · exact (hg.cases c hc).imp_right fun h ↦ h.imp_right fun h ↦ ⟨h.1, fun heq ↦ (hne heq).elim⟩
    · exact .inr (.inl (hg.steady.unled hu))
    · exact .inr (hchild.path.imp_right fun heq ↦ ⟨hpath.trans heq, fun heq ↦ (hne heq).elim⟩)
  steady := hg.steady.trans hh.steady

/-! ## Several states, one after another -/

section

variable {P Q R : Branch → State → Prop}

theorem Own.parts {P : State → Prop} (h : f.Own I g)
    (hnone : ∀ id ≥ f.executor.nextStateId, f.executor.states[id]? = none) (hown : g.Going → P g.state) :
    f.Parts (fun b s ↦ b = .current ∧ P s) g := by
  have hnone : ∀ {id}, id ≥ f.executor.nextStateId → ∀ {s}, g.executor.states[id]? ≠ some s :=
    fun hid _ hs ↦ nomatch (hnone _ hid).symm.trans ((h.states_eq _).symm.trans hs)
  exact ⟨h.id_eq, h.part, fun hg ↦ ⟨rfl, hown hg⟩, fun id _ ↦ h.states_eq id, fun _ hid _ hs ↦ (hnone hid hs).elim,
    fun _ hid _ hs ↦ (hnone hid hs).elim, fun _ hid _ hs ↦ (hnone hid hs).elim, h.next_le,
    fun id hid ↦ (h.removed id hid).imp_right .inl, h.removed_sub, h.cases, h.steady⟩

theorem Tidy.none (hf : f.Tidy) : ∀ id ≥ f.executor.nextStateId, f.executor.states[id]? = none :=
  fun _ hid ↦ Option.eq_none_iff_forall_ne_some.2 fun _ hs ↦ Nat.not_lt.2 hid (hf.named _ _ hs).2

theorem Parts.none (h : f.Parts P g) : ∀ id ≥ g.executor.nextStateId, g.executor.states[id]? = none :=
  fun id hid ↦ Option.eq_none_iff_forall_ne_some.2 fun s hs ↦
    Nat.not_lt.2 hid (h.named id (Nat.le_trans h.next_le hid) s hs).2

theorem Parts.going (h : f.Parts P g) (hg : g.Going) : f.Going := fun hmem ↦
  hg (h.id_eq ▸ h.removed_sub _ hmem)

theorem Parts.imp (h : f.Parts P g) (hPQ : ∀ b s, g.stateAt? b = some s → P b s → Q b s) : f.Parts Q g :=
  ⟨h.id_eq, h.part, fun hg ↦ hPQ .current _ rfl (h.own hg), h.old, h.named, h.parts,
    fun id hid s hs hr ↦ hPQ (.forked id) s hs (h.new id hid s hs hr), h.next_le, h.removed,
    h.removed_sub, h.cases, h.steady⟩

theorem Parts.mono (h : f.Parts P g) (hPQ : ∀ b s, P b s → Q b s) : f.Parts Q g :=
  h.imp fun b s _ ↦ hPQ b s

theorem Parts.refl (hf : f.Tidy) (hown : P .current f.state) : f.Parts P f :=
  ((Own.refl (I := ⟨.all, True⟩) f).parts (P := (P .current ·)) hf.none fun _ ↦ hown).mono
    fun _ _ h ↦ h.1 ▸ h.2

theorem Parts.trans (hg : f.Parts P g) (hh : g.Parts Q h) (hhere : ∀ s, Q .current s → R .current s)
    (hold : ∀ id < g.executor.nextStateId, ∀ s, P (.forked id) s → R (.forked id) s)
    (hnew : ∀ id ≥ g.executor.nextStateId, ∀ s, Q (.forked id) s → R (.forked id) s) : f.Parts R h where
  id_eq := hh.id_eq.trans hg.id_eq
  part := hg.part.trans hg.steady hh.part
  own hgoing := hhere _ (hh.own hgoing)
  old id hid := (hh.old id (Nat.lt_of_lt_of_le hid hg.next_le)).trans (hg.old id hid)
  named id hid s hs := by
    by_cases hlt : id < g.executor.nextStateId
    · exact ⟨(hg.named id hid s (hh.old id hlt ▸ hs)).1, Nat.lt_of_lt_of_le hlt hh.next_le⟩
    · exact hh.named id (Nat.le_of_not_lt hlt) s hs
  parts id hid s hs := by
    by_cases hlt : id < g.executor.nextStateId
    · exact hg.parts id hid s (hh.old id hlt ▸ hs)
    · exact hg.part.trans hg.steady (hh.parts id (Nat.le_of_not_lt hlt) s hs)
  new id hid s hs hr := by
    by_cases hlt : id < g.executor.nextStateId
    · exact hold id hlt s (hg.new id hid s (hh.old id hlt ▸ hs) fun hmem ↦ hr (hh.removed_sub id hmem))
    · exact hnew id (Nat.le_of_not_lt hlt) s (hh.new id (Nat.le_of_not_lt hlt) s hs hr)
  next_le := Nat.le_trans hg.next_le hh.next_le
  removed id hid := by
    obtain hid | rfl | hid := hh.removed id hid
    · exact (hg.removed id hid).imp_right fun h ↦ h.imp_right fun h ↦ ⟨h.1, Nat.lt_of_lt_of_le h.2 hh.next_le⟩
    · exact .inr (.inl hg.id_eq)
    · exact .inr (.inr ⟨Nat.le_trans hg.next_le hid.1, hid.2⟩)
  removed_sub id hid := hh.removed_sub id (hg.removed_sub id hid)
  cases c hc := (hh.cases c hc).trans (hg.cases c) hg.part hg.steady hg.next_le hh.next_le (hh.going ·)
  steady := hg.steady.trans hh.steady

theorem Parts.visit {id : StateId} {s : State} (hg : f.Parts P g) (hid : f.executor.nextStateId ≤ id)
    (hs : g.executor.states[id]? = some s)
    (hh : Parts Q ⟨{ g.executor with states := g.executor.states.erase id }, s⟩ h)
    (hhere : P .current g.state → R .current g.state) (hthere : ∀ s, Q .current s → R (.forked id) s)
    (hold : ∀ id' < g.executor.nextStateId, id' ≠ id → ∀ s, P (.forked id') s → R (.forked id') s)
    (hnew : ∀ id' ≥ g.executor.nextStateId, ∀ s, Q (.forked id') s → R (.forked id') s) :
    f.Parts R ⟨{ h.executor with states := h.executor.states.insert id h.state }, g.state⟩ := by
  obtain ⟨hname, hlt⟩ := hg.named id hid s hs
  have hpart := hg.parts id hid s hs
  have hsteady : f.executor.Steady { g.executor with states := g.executor.states.erase id } :=
    hg.steady.trans ⟨rfl, rfl, fun hempty ↦ hempty⟩
  -- a state is the one that was divided, one that was there before, or a new one
  have hcases : ∀ {id' s'}, (h.executor.states.insert id h.state)[id']? = some s' →
      (id' = id ∧ s' = h.state) ∨ (id' ≠ id ∧ id' < g.executor.nextStateId ∧ g.executor.states[id']? = some s') ∨
        (g.executor.nextStateId ≤ id' ∧ h.executor.states[id']? = some s') := by
    intro id' s' hs'
    rw [getElem?_insert_state] at hs'
    split at hs'
    · exact .inl ⟨Eq.symm ‹_›, (Option.some.inj hs').symm⟩
    · by_cases hlt' : id' < g.executor.nextStateId
      · have hold := (hh.old id' hlt').symm.trans hs'
        dsimp only at hold
        rw [getElem?_erase_state, if_neg ‹_›] at hold
        exact .inr (.inl ⟨Ne.symm ‹_›, hlt', hold⟩)
      · exact .inr (.inr ⟨Nat.le_of_not_lt hlt', hs'⟩)
  refine ⟨hg.id_eq, hg.part, fun hgoing ↦ hhere (hg.own fun hmem ↦ hgoing (hh.removed_sub _ hmem)),
    fun id' hid' ↦ ?_, fun id' hid' s' hs' ↦ ?_, fun id' hid' s' hs' ↦ ?_, fun id' hid' s' hs' hr ↦ ?_,
    Nat.le_trans hg.next_le hh.next_le, fun id' hid' ↦ ?_,
    fun id' hid' ↦ hh.removed_sub id' (hg.removed_sub id' hid'), fun c hc ↦ ?_,
    hsteady.trans ⟨hh.steady.config_eq, hh.steady.replayPath_eq, hh.steady.seeds⟩⟩
  · have hne : id ≠ id' := fun heq ↦ Nat.not_lt.2 hid (heq ▸ hid')
    refine (getElem?_insert_state ..).trans ((if_neg hne).trans ?_)
    refine (hh.old id' (Nat.lt_of_lt_of_le hid' hg.next_le)).trans (Eq.trans ?_ (hg.old id' hid'))
    exact (getElem?_erase_state ..).trans (if_neg hne)
  · obtain ⟨rfl, rfl⟩ | ⟨-, hlt', hs'⟩ | ⟨hge, hs'⟩ := hcases hs'
    · exact ⟨hh.id_eq.trans hname, Nat.lt_of_lt_of_le hlt hh.next_le⟩
    · exact ⟨(hg.named id' hid' s' hs').1, Nat.lt_of_lt_of_le hlt' hh.next_le⟩
    · exact hh.named id' hge s' hs'
  · obtain ⟨rfl, rfl⟩ | ⟨-, -, hs'⟩ | ⟨hge, hs'⟩ := hcases hs'
    · exact hpart.trans hsteady hh.part
    · exact hg.parts id' hid' s' hs'
    · exact hpart.trans hsteady (hh.parts id' hge s' hs')
  · obtain ⟨rfl, rfl⟩ | ⟨hne, hlt', hs'⟩ | ⟨hge, hs'⟩ := hcases hs'
    · exact hthere _ (hh.own (by rwa [Going, hh.id_eq, hname]))
    · exact hold id' hlt' hne s' (hg.new id' hid' s' hs' fun hmem ↦ hr (hh.removed_sub _ hmem))
    · exact hnew id' hge s' (hh.new id' hge s' hs' hr)
  · obtain hid' | heq | hid' := hh.removed id' hid'
    · refine (hg.removed id' hid').imp_right fun h ↦ h.imp_right fun h ↦ ?_
      exact ⟨h.1, Nat.lt_of_lt_of_le h.2 hh.next_le⟩
    · obtain rfl : id' = id := heq.trans hname
      exact .inr (.inr ⟨hid, Nat.lt_of_lt_of_le hlt hh.next_le⟩)
    · exact .inr (.inr ⟨Nat.le_trans hg.next_le hid'.1, hid'.2⟩)
  · have hne : h.executor.nextStateId ≠ f.executor.nextStateId :=
      Nat.ne_of_gt (Nat.lt_of_le_of_lt hid (Nat.lt_of_lt_of_le hlt hh.next_le))
    obtain hc | hu | ⟨hpath, -⟩ := hh.cases c hc
    · exact (hg.cases c hc).imp_right fun h ↦ h.imp_right fun h ↦ ⟨h.1, fun heq ↦ (hne heq).elim⟩
    · exact .inr (.inl (hsteady.unled hu))
    · exact .inr (hpart.path.imp_right fun heq ↦ ⟨hpath.trans heq, fun heq ↦ (hne heq).elim⟩)

theorem Parts.insert {child : State} (hg : f.Parts P g)
    (hid : f.executor.nextStateId ≤ child.id ∧ child.id < g.executor.nextStateId) (hpart : f.Part child)
    (hchild : P (.forked child.id) child) :
    f.Parts P ⟨{ g.executor with states := g.executor.states.insert child.id child }, g.state⟩ := by
  have hget : ∀ {id s}, (g.executor.states.insert child.id child)[id]? = some s →
      child.id = id ∧ child = s ∨ g.executor.states[id]? = some s := by
    intro id s hs
    rw [getElem?_insert_state] at hs
    split at hs
    · exact .inl ⟨‹_›, Option.some.inj hs⟩
    · exact .inr hs
  refine ⟨hg.id_eq, hg.part, hg.own, fun id hlt ↦ ?_, fun id hid' s hs ↦ ?_, fun id hid' s hs ↦ ?_,
    fun id hid' s hs hr ↦ ?_, hg.next_le, hg.removed, hg.removed_sub, hg.cases,
    ⟨hg.steady.config_eq, hg.steady.replayPath_eq, hg.steady.seeds⟩⟩
  · refine Eq.trans ?_ (hg.old id hlt)
    exact (getElem?_insert_state ..).trans (if_neg fun heq : child.id = id ↦ Nat.not_lt.2 hid.1 (heq ▸ hlt))
  · obtain ⟨rfl, rfl⟩ | hs := hget hs
    · exact ⟨rfl, hid.2⟩
    · exact hg.named id hid' s hs
  · obtain ⟨rfl, rfl⟩ | hs := hget hs
    · exact hpart
    · exact hg.parts id hid' s hs
  · obtain ⟨rfl, rfl⟩ | hs := hget hs
    · exact hchild
    · exact hg.new id hid' s hs hr

end

variable {bound bound' : Branch → Assignment → Prop} {P : Assignment → Prop}

theorem Spread.refl (hf : f.Tidy) (hown : ∀ a, I.Solves a f.state.constraints → bound .current a) :
    f.Spread I bound f := Parts.refl hf hown

theorem Spread.of_bound (h : f.Spread I bound g) (hown : ∀ a, bound .current a → bound' .current a)
    (hnew : ∀ id s, g.executor.states[id]? = some s → ∀ a, bound (.forked id) a → bound' (.forked id) a) :
    f.Spread I bound' g :=
  h.imp fun b s hs hb a ha ↦ by
    cases b with
    | current => exact hown a (hb a ha)
    | forked id => exact hnew id s hs a (hb a ha)

theorem Spread.mono (h : f.Spread I bound g) (hbound : ∀ b a, bound b a → bound' b a) :
    f.Spread I bound' g :=
  h.of_bound (hbound _) fun _ _ _ ↦ hbound _

theorem Spread.withSeeds (h : f.Spread I bound g) (hne : f.executor.seeds.isEmpty = false)
    (seeds : Std.TreeMap StateId (List Seed)) :
    f.Spread I bound { g with executor := { g.executor with seeds } } :=
  ⟨h.id_eq, h.part, h.own, h.old, h.named, h.parts, h.new, h.next_le, h.removed, h.removed_sub, h.cases,
    h.steady.config_eq, h.steady.replayPath_eq, fun hempty ↦ (Bool.eq_false_iff.1 hne hempty).elim⟩

theorem Spread.work (hg : f.Spread I bound g) (hh : g.Own I h)
    (hP : h.Going → ∀ a, I.Solves a h.state.constraints → P a) :
    f.Spread I (fun b a ↦ bound b a ∧ (b = .current → P a)) h := by
  refine hg.trans (hh.parts (P := fun s ↦ ∀ a, I.Solves a s.constraints → bound .current a ∧ P a) hg.none
    fun hgoing a ha ↦ ?_) (fun _ hb a ha ↦ ⟨(hb.2 a ha).1, fun _ ↦ (hb.2 a ha).2⟩)
    (fun id _ s hb a ha ↦ ⟨hb a ha, nofun⟩) nofun
  have hbefore : g.Going := fun hmem ↦ hgoing (hh.id_eq ▸ hh.removed_sub _ hmem)
  exact ⟨hg.own hbefore a (hh.narrower a ha), hP hgoing a ha⟩

theorem Spread.visit {id : StateId} {s : State} (hg : f.Spread I bound g)
    (hid : f.executor.nextStateId ≤ id) (hs : g.executor.states[id]? = some s)
    (hh : Own I ⟨{ g.executor with states := g.executor.states.erase id }, s⟩ h)
    (hP : h.Going → ∀ a, I.Solves a h.state.constraints → P a) :
    f.Spread I (fun b a ↦ bound b a ∧ (b = .forked id → P a))
      ⟨{ h.executor with states := h.executor.states.insert id h.state }, g.state⟩ := by
  obtain ⟨hname, hlt⟩ := hg.named id hid s hs
  have hnone : ∀ id' ≥ g.executor.nextStateId, (g.executor.states.erase id)[id']? = none := fun id' hid' ↦ by
    rw [getElem?_erase_state, hg.none id' hid', ite_self]
  refine Parts.visit hg hid hs (hh.parts
    (P := fun s ↦ ∀ a, I.Solves a s.constraints → bound (.forked id) a ∧ P a) hnone fun hgoing a ha ↦ ?_)
    (fun hb a ha ↦ ⟨hb a ha, nofun⟩) (fun _ hb a ha ↦ ⟨(hb.2 a ha).1, fun _ ↦ (hb.2 a ha).2⟩)
    (fun id' _ hne s hb a ha ↦ ⟨hb a ha, fun heq ↦ absurd (Branch.forked.inj heq) hne⟩) nofun
  refine ⟨hg.new id hid s hs (fun hmem ↦ hgoing ?_) a (hh.narrower a ha), hP hgoing a ha⟩
  exact hh.id_eq.trans hname ▸ hh.removed_sub id hmem

end Focus

namespace Exec

variable {focus : Focus σ} {condition : Expr} {internal : Bool} {x : Exec σ α} {k : α → Exec σ β}

/-! ## Seeds -/

theorem ends_query_solver (question : ConstraintSet → Ask σ α) : (query question).Ends (fun _ ↦ True) focus
    fun _ f ↦ ∃ solver, f = focus.withSolver solver := by
  refine ends_bind (P := fun r f ↦ (∃ answer, r = .ok answer) ∧ ∃ solver, f = focus.withSolver solver)
    (ends_ask_any (ends_true_iff.2 fun p _ ↦ ⟨⟨p.1, rfl⟩, p.2, rfl⟩)) (fun answer f h ↦ ?_)
      fun _ _ h ↦ (nomatch h.1)
  split
  · exact ends_pure h.2
  · exact ends_fail h.2

theorem stays_patchSeeds (condition : Expr) : (patchSeeds condition : Exec σ Unit).Stays I quiet := by
  intro focus
  refine ends_bind_ok rfl ?_
  split
  · rename_i seeds hseeds
    split
    · exact ends_pure ⟨.refl I _, fun _ ↦ rfl⟩
    · have hasked : ∀ solver, focus.Solo I (focus.withSolver solver) := fun solver ↦
        .of_quiet ⟨⟨rfl, rfl, rfl, rfl, rfl, rfl, id⟩, rfl, rfl, rfl, rfl⟩ (.refl _)
      refine ends_bind_ok rfl (ends_bind (ends_query_solver _) ?_ ?_)
      · rintro o _ ⟨solver, rfl⟩
        split
        · refine ends_modifyExecutor ⟨(hasked solver).trans (.setSeeds hseeds fun hfree seed hseed ↦ ?_), fun _ ↦ rfl⟩
          obtain ⟨old, hold, rfl⟩ := List.mem_map.1 hseed
          split
          · exact hfree old hold
          · exact (Seed.free_foldl (by rintro s ⟨array, bytes⟩; rfl) _ old).trans (hfree old hold)
        · exact ends_pure ⟨hasked solver, fun _ ↦ rfl⟩
      · rintro _ _ ⟨solver, rfl⟩
        exact ⟨hasked solver, fun _ ↦ rfl⟩
  · exact ends_pure ⟨.refl I _, fun _ ↦ rfl⟩

/-! ## Constraints -/

theorem ends_addConstraint_solo (hvalid : focus.state.constraints.Valid) (hcond : condition.WellFormed) :
    (addConstraint condition).Ends (fun _ ↦ True) focus fun _ f ↦
      (focus.Solo I f ∧ f.executor.removed = focus.executor.removed) ∧
        ∀ a, I.Solves a f.state.constraints → a.val condition ≠ 0 := by
  have hpatch : (patchSeeds condition : Exec σ Unit).Stays I True := stays_patchSeeds condition
  refine ends_bind (P := fun _ f ↦ (focus.Solo I f ∧ f.executor.removed = focus.executor.removed) ∧
    ∀ a, I.Solves a f.state.constraints → a.val condition ≠ 0) (ends_updateState ?_)
    (fun _ f h ↦ (hpatch f).mono fun _ f' h' ↦ ?_) fun _ _ h ↦ h
  · refine ends_true_iff.2 fun s hs ↦ ?_
    obtain ⟨c, hadd, hs⟩ := bind_eq_ok.1 hs
    obtain rfl := pure_eq_ok.1 hs
    obtain ⟨hc, hsolves⟩ := hvalid.of_add (I := I) hcond hadd
    have hwrites : focus.Writes [] [] [] [] { focus with state := { focus.state with constraints := c } } :=
      .of_state rfl
    exact ⟨⟨⟨⟨rfl, ⟨fun _ ↦ hc, .inr rfl⟩, fun a ha ↦ (hsolves a ha).1, fun _ ↦ rfl, Nat.le_refl _,
      fun _ ↦ .inl, fun _ ↦ id, fun _ ↦ .inl, ⟨rfl, rfl, id⟩⟩, hwrites.booked⟩, rfl⟩,
      fun a ha ↦ (hsolves a ha).2⟩
  · exact ⟨⟨h.1.1.trans h'.1, (h'.2 trivial).trans h.1.2⟩, fun a ha ↦ h.2 a (h'.1.narrower a ha)⟩

theorem concerns_addConstraint (condition : Expr) : (addConstraint condition : Exec σ Unit).Concerns := by
  refine concerns_bind (total_updateState _).concerns fun _ ↦ concerns_bind total_seeds?.concerns fun o ↦ ?_
  split
  · split
    · exact (total_pure _).concerns
    · refine concerns_bind total_state.concerns fun s ↦ concerns_bind (concerns_query _) fun o ↦ ?_
      split
      · exact (total_modifyExecutor _).concerns
      · exact (total_pure _).concerns
  · exact (total_pure _).concerns

theorem goes_addConstraint (hcond : condition.IsTruth) :
    (addConstraint condition : Exec σ Unit).Goes I twins needs needs := fun _ hf _ _ hgoing ↦
  (ends_addConstraint_solo hf.state.valid hcond.1).mono fun _ _ h ↦
    ⟨h.1.1.makes, fun hn _ _ ↦ own_going h.1.1.toOwn h.1.2 (hgoing hn)⟩

theorem goes_bind_pure {f : α → β} (hx : x.Goes I twins needs gives) :
    (x >>= fun a ↦ pure (f a)).Goes I twins needs gives := fun focus hf ht hs hgoing ↦
  ends_bind (hx focus hf ht hs hgoing) (fun a _ h ↦ ends_pure
    ⟨h.1.mono fun h ↦ (not_strayed_ok h).elim, fun hg _ _ ↦ h.2 hg a rfl⟩) fun _ _ h ↦ ⟨h.1.mono .of_error, nofun⟩

theorem goes_toConstant {e : Expr} (he : e.WellFormed) :
    (toConstant e : Exec σ Expr).Goes I twins needs needs := by
  unfold toConstant
  split
  · exact (stays_pure _).goes
  · refine goes_bind (keeps_value he) (stays_query _).goes fun v hv ↦ ?_
    refine goes_bind (keeps_lift (Expr.safe_mkCompare .eq he hv.1)) (stays_lift _).goes fun c hc ↦ ?_
    exact goes_bind_pure (goes_addConstraint hc)

theorem stays_toUnique (e : Expr) : (toUnique e : Exec σ Expr).Stays I quiet := by
  unfold toUnique
  split
  · exact stays_pure _
  · refine stays_bind (stays_ask _) fun r ↦ ?_
    split
    · exact stays_pure _
    · refine stays_bind (stays_lift _) fun c ↦ stays_bind (stays_ask _) fun r ↦ ?_
      split <;> exact stays_pure _

/-! ## Forks -/

theorem ends_takeSide_solo (hvalid : focus.state.constraints.Valid) (hcond : condition.IsTruth)
    (side : Bool) : (takeSide condition side).Ends (fun _ ↦ True) focus fun r f ↦
      focus.Solo I f ∧ f.executor.removed = focus.executor.removed ∧
        ∀ v, r = .ok v → v = if side then .always else .never := by
  have htruth : (if side then condition else condition.isZero).IsTruth := by
    cases side with
    | true => exact hcond
    | false => exact hcond.isZero
  exact ends_bind (ends_addConstraint_solo hvalid htruth.1)
    (fun _ _ h ↦ ends_pure ⟨h.1.1, h.1.2, by rintro _ ⟨⟩; rfl⟩) fun _ _ h ↦ ⟨h.1.1, h.1.2, nofun⟩

theorem yields_takeSide (hseeds : focus.executor.seeds[focus.state.id]? = none) (side : Bool) :
    (takeSide condition side).Yields focus fun _ _ ↦ True := by
  refine yields_bind (Q := fun _ _ ↦ True) ?_ fun _ _ _ ↦ yields_pure trivial
  refine yields_bind (Q := fun _ f ↦ f.executor.seeds[f.state.id]? = none)
    (ends_updateState (ends_true_iff.2 fun s hs ↦ ⟨(), rfl, ?_⟩)) fun _ f hf ↦ ends_bind_ok rfl ?_
  · obtain ⟨c, -, hs⟩ := bind_eq_ok.1 hs
    obtain rfl := pure_eq_ok.1 hs
    exact hseeds
  · rw [hf]
    exact yields_pure trivial

/-- What policies make of a truth value. It stays open, and then both sides may be recorded; or a side is
taken, and recording it is all that is left to do. -/
inductive Restricted (I : Trust) (twins : Prop) (internal : Bool) (focus : Focus σ) :
    Except PathError Validity → Focus σ → Prop
  | failed {e : PathError} {f : Focus σ} (h : focus.Makes I twins (e.payload = .replayInvalidBranch) f) :
      Restricted I twins internal focus (.error e) f
  | unsettled (hfree : internal = true ∨ focus.executor.Unled) :
      Restricted I twins internal focus (.ok .sometimes) focus
  | taken (side : Bool) {f : Focus σ} (h : focus.Makes I twins False (f.recorded side internal)) :
      Restricted I twins internal focus (.ok (if side then .always else .never)) f

theorem ends_takeSide_free {f : Focus σ} (hfree : internal = true ∨ focus.executor.Unled) (hown : focus.Solo I f)
    (hvalid : f.state.constraints.Valid) (hcond : condition.IsTruth) (side : Bool) :
    (takeSide condition side).Ends (fun _ ↦ True) f (Restricted I twins internal focus) := by
  refine (ends_takeSide_solo (I := I) hvalid hcond side).mono fun r g h ↦ ?_
  cases r with
  | error e => exact .failed (hown.trans h.1).makes
  | ok v =>
    obtain rfl := h.2.2 v rfl
    exact .taken side ((hown.trans h.1).recorded hfree).makes

theorem restricted_free (hfree : internal = true ∨ focus.executor.Unled) (v : Validity) :
    Restricted I twins internal focus (.ok v) focus := by
  cases v with
  | sometimes => exact .unsettled hfree
  | always => exact .taken true ((Focus.Solo.refl I focus).recorded hfree).makes
  | never => exact .taken false ((Focus.Solo.refl I focus).recorded hfree).makes

theorem ends_replaySide (hvalid : focus.state.constraints.Valid) (hcond : condition.IsTruth)
    (hgoing : focus.Going) (hseeds : focus.executor.seeds[focus.state.id]? = none)
    (hreplay : focus.executor.replayPath.isSome) (v : Validity) :
    (replaySide condition v).Ends (fun _ ↦ True) focus (Restricted I twins false focus) := by
  refine ends_bind_ok rfl ?_
  split
  · rename_i hnone
    rw [hnone] at hreplay
    cases hreplay
  · exact ends_fail (.failed (.refl _))
  · rename_i side rest hpath
    refine ends_bind_ok rfl ?_
    have hbooked : focus.Booked (focus.withReplayPath rest) := (focus.writes_withReplayPath rest).booked
    have hstray : focus.Makes I twins (ExecError.replayInvalidBranch = .replayInvalidBranch)
        (focus.withReplayPath rest) := ⟨.stray rfl hpath, hbooked⟩
    have hfollow : ∀ {g : Focus σ}, (focus.withReplayPath rest).Solo I g → g.executor.removed = focus.executor.removed →
        focus.Makes I twins False (g.recorded side false) := fun {g} h hremoved ↦
      ⟨.follow hpath h.toOwn (own_going h.toOwn hremoved hgoing),
        hbooked.trans (h.booked.trans (g.writes_recorded side false).booked)⟩
    have hkeep : focus.Makes I twins False ((focus.withReplayPath rest).recorded side false) := hfollow (.refl I _) rfl
    have htake : (takeSide condition side).Ends (fun _ ↦ True) (focus.withReplayPath rest)
        (Restricted I twins false focus) := by
      have hvalid : (focus.withReplayPath rest).state.constraints.Valid := hvalid
      have hseeds : (focus.withReplayPath rest).executor.seeds[(focus.withReplayPath rest).state.id]? = none := hseeds
      refine Ends.mono ((yields_takeSide hseeds side).and (ends_takeSide_solo (I := I) hvalid hcond side)) ?_
      rintro _ g ⟨v, rfl, -, h⟩
      obtain rfl := h.2.2 v rfl
      exact .taken side (hfollow h.1 h.2.1)
    cases v with
    | sometimes => exact htake
    | always =>
      cases side with
      | true => exact ends_pure (.taken true hkeep)
      | false => exact ends_fail (.failed hstray)
    | never =>
      cases side with
      | true => exact ends_fail (.failed hstray)
      | false => exact ends_pure (.taken false hkeep)

theorem ends_restrict_moves (hvalid : focus.state.constraints.Valid) (hcond : condition.IsTruth)
    (hgoing : focus.Going) (v : Validity) :
    (restrict condition internal v).Ends (fun _ ↦ True) focus (Restricted I twins internal focus) := by
  refine ends_bind_ok rfl (ends_bind_ok rfl ?_)
  split
  · rename_i h
    obtain ⟨⟨rfl, hseeds⟩, hreplay⟩ : (internal = false ∧ focus.executor.seeds[focus.state.id]? = none) ∧
        focus.executor.replayPath.isSome = true := by simpa using h
    exact ends_replaySide hvalid hcond hgoing hseeds hreplay v
  · rename_i h
    -- the path is not recorded, or nothing leads it
    have hfree : internal = true ∨ focus.executor.Unled := by
      refine or_iff_not_imp_left.2 fun hinternal ↦ ?_
      cases hseeds : focus.executor.seeds[focus.state.id]? with
      | some seeds => exact .inr (Focus.isEmpty_seeds_of_getElem? hseeds)
      | none => exact .inl (by simpa [hinternal, hseeds] using h)
    split
    · split
      · refine ends_bind_ok rfl ?_
        split
        · unfold followSeeds
          dsimp only
          split
          · exact ends_takeSide_free hfree (.refl I _) hvalid hcond _
          · exact ends_pure (.unsettled hfree)
        · exact ends_pure (restricted_free hfree v)
      · refine ends_bind_ok rfl ?_
        split
        · have hdraw : (draw Rng.coin : Exec σ Bool).Stays I True := stays_draw _
          refine ends_bind (hdraw focus) (fun side f h ↦ ?_) fun _ _ h ↦ .failed h.1.makes
          exact ends_takeSide_free hfree h.1 (h.1.part.valid hvalid) hcond side
        · exact ends_pure (restricted_free hfree v)
    · exact ends_pure (restricted_free hfree v)

/-- A copy is like the state it was made from but for its name, which is the next one. -/
structure Copies (I : Trust) (focus : Focus σ) (child : State) (focus' : Focus σ) : Prop where
  own : focus.Own I focus'
  removed_eq : focus'.executor.removed = focus.executor.removed
  constraints_eq : child.constraints = focus.state.constraints
  path_eq : child.path = focus.state.path
  id_eq : child.id = focus.executor.nextStateId
  next_eq : focus'.executor.nextStateId = focus.executor.nextStateId + 1

theorem ends_spawn_copies : (spawn : Exec σ State).Ends (fun _ ↦ True) focus fun r f ↦
    ∃ child, r = .ok child ∧ Copies I focus child f := by
  have hcopies : ∀ (tree : ProcessTree) (left right : Option NodeId), Copies I focus
      { (focus.state.branch focus.executor.nextStateId).2 with node := right }
      ⟨{ focus.executor with
          nextStateId := focus.executor.nextStateId + 1
          added := focus.executor.added ++ [focus.executor.nextStateId], tree },
        { (focus.state.branch focus.executor.nextStateId).1 with node := left }⟩ := fun tree left right ↦
    ⟨⟨rfl, ⟨id, .inr rfl⟩, fun _ ↦ id, fun _ ↦ rfl, Nat.le_succ _, fun _ ↦ .inl, fun _ ↦ id, fun _ ↦ .inl,
      ⟨rfl, rfl, id⟩⟩, rfl, rfl, rfl, rfl, rfl⟩
  refine ends_bind_ok rfl ?_
  dsimp only
  split
  · exact ends_bind_ok rfl (ends_pure ⟨_, rfl, hcopies _ _ _⟩)
  · refine ends_bind (P := fun r f ↦ (∃ p, r = .ok p) ∧ f = focus)
      (ends_lift (ends_true_iff.2 fun p _ ↦ ⟨⟨p, rfl⟩, rfl⟩)) ?_ fun _ _ h ↦ (nomatch h.1)
    rintro ⟨⟨left, right⟩, tree⟩ _ ⟨-, rfl⟩
    exact ends_bind_ok rfl (ends_pure ⟨_, rfl, hcopies _ _ _⟩)

/-- What is at the places of a state that is divided by a condition: where it holds the state itself, and
where it fails the next one. -/
def sideBound (I : Trust) (focus : Focus σ) (condition : Expr) (b : Branch) (a : Assignment) : Prop :=
  I.Solves a focus.state.constraints ∧ (b = .current → a.val condition ≠ 0) ∧
    ∀ id, b = .forked id → id = focus.executor.nextStateId ∧ a.val condition = 0

theorem moves_of_sides {f : Focus σ} (hgoing : focus.Going)
    (h : focus.Spread I (sideBound I focus condition) f) : focus.Moves I twins lost f := by
  refine .divide ⟨hgoing, h, fun _ _ hb ↦ hb.1, fun _ b b' a hne hb hb' ↦ ?_⟩
  cases b with
  | current =>
    cases b' with
    | current => exact hne rfl
    | forked id => exact hb.2.1 rfl (hb'.2.2 id rfl).2
  | forked id =>
    cases b' with
    | current => exact hb'.2.1 rfl (hb.2.2 id rfl).2
    | forked id' => exact hne (by rw [(hb.2.2 id rfl).1, (hb'.2.2 id' rfl).1])

/-- How the division of a state by a condition ends: with both sides, without any because they have come too
far, or with an error before there is a new state. -/
inductive Forked (I : Trust) (focus : Focus σ) (condition : Expr) : Except PathError Sides → Focus σ → Prop
  | failed {e : PathError} {f : Focus σ} (he : e.payload.isFatal = false) (h : focus.Own I f) :
      Forked I focus condition (.error e) f
  | ended {f : Focus σ} (h : focus.Spread I (fun _ _ ↦ False) f) : Forked I focus condition (.ok (none, none)) f
  | both {id : StateId} {f : Focus σ} (hid : id = focus.executor.nextStateId)
      (hlt : id < f.executor.nextStateId) (h : focus.Spread I (sideBound I focus condition) f) :
      Forked I focus condition (.ok (some .current, some (.forked id))) f

theorem Forked.moves {r : Except PathError Sides} {f : Focus σ} (hgoing : focus.Going)
    (h : Forked I focus condition r f) : focus.Moves I twins lost f := by
  cases h with
  | failed _ h => exact .own h
  | ended h =>
    have h : focus.Spread I (sideBound I focus condition) f := h.mono fun _ _ ↦ False.elim
    exact moves_of_sides hgoing h
  | both _ _ h => exact moves_of_sides hgoing h

theorem Copies.withSeeds {child : State} {f : Focus σ} (h : Copies I focus child f)
    (hne : focus.executor.seeds.isEmpty = false) (seeds : Std.TreeMap StateId (List Seed)) :
    Copies I focus child { f with executor := { f.executor with seeds } } :=
  ⟨h.own.withSeeds hne seeds, h.removed_eq, h.constraints_eq, h.path_eq, h.id_eq, h.next_eq⟩

/-- A copy that went to the side where the condition fails. -/
structure FailingSide (I : Trust) (focus : Focus σ) (condition : Expr) (copy : State) : Prop where
  id_eq : copy.id = focus.executor.nextStateId
  part : focus.Part copy
  solves : ∀ a, I.Solves a copy.constraints → I.Solves a focus.state.constraints ∧ a.val condition = 0

theorem FailingSide.bound {copy : State} (h : FailingSide I focus condition copy) {a : Assignment}
    (ha : I.Solves a copy.constraints) : sideBound I focus condition (.forked copy.id) a := by
  refine ⟨(h.solves a ha).1, nofun, ?_⟩
  rintro _ ⟨⟩
  exact ⟨h.id_eq, (h.solves a ha).2⟩

theorem ends_failingSide {child : State} {g g₁ : Focus σ} (hvalid : focus.state.constraints.Valid)
    (hcond : condition.IsTruth) (hfree : internal = true ∨ focus.executor.Unled) (hcopy : Copies I focus child g)
    (hown : focus.Own I g₁) (hnext : g.executor.nextStateId ≤ g₁.executor.nextStateId) :
    (within child do
      recordSide false internal
      addConstraint condition.isZero : Exec σ (Except PathError Unit × State)).Ends (fun _ ↦ True) g₁ fun r f ↦
        ∃ result copy, r = .ok (result, copy) ∧ (∀ e, result = .error e → e.payload.isFatal = false) ∧
          focus.Own I f ∧ f.state = g₁.state ∧ copy.id < f.executor.nextStateId ∧
            FailingSide I focus condition copy := by
  have hchild : focus.Part child := ⟨fun hc ↦ hcopy.constraints_eq ▸ hc, .inr hcopy.path_eq⟩
  obtain ⟨copy, hcopied, hid, hc, hpart⟩ : ∃ copy : State,
      Focus.recorded { g₁ with state := child } false internal = { g₁ with state := copy } ∧
        copy.id = child.id ∧ copy.constraints = child.constraints ∧ focus.Part copy := by
    cases internal with
    | true => exact ⟨child, rfl, rfl, rfl, hchild⟩
    | false => exact ⟨_, rfl, rfl, rfl, hchild.valid, .inl (hfree.resolve_left nofun)⟩
  refine ends_within (ends_bind_ok (run_recordSide false internal) ?_)
  rw [hcopied]
  have hvalid' : ({ g₁ with state := copy } : Focus σ).state.constraints.Valid := hpart.valid hvalid
  refine ((ends_addConstraint_solo (I := I) hvalid' hcond.isZero.1).and
    (concerns_addConstraint _ _)).mono fun r f ⟨h, herror⟩ ↦ ?_
  have hname : f.state.id = focus.executor.nextStateId := h.1.1.id_eq.trans (hid.trans hcopy.id_eq)
  have hnew : focus.executor.nextStateId < g₁.executor.nextStateId :=
    Nat.lt_of_lt_of_le (hcopy.next_eq ▸ Nat.lt_succ_self _) hnext
  have hlt : focus.executor.nextStateId < f.executor.nextStateId := Nat.lt_of_lt_of_le hnew h.1.1.next_le
  refine ⟨r, f.state, rfl, herror, hown.within hpart hnew h.1.1.toOwn h.1.2, rfl, hname ▸ hlt, hname,
    Focus.Part.trans (g := { g₁ with state := copy }) hpart hown.steady h.1.1.part, fun a ha ↦ ?_⟩
  have hold := h.1.1.narrower a ha
  dsimp only at hold
  rw [hc, hcopy.constraints_eq] at hold
  exact ⟨hold, by simpa [Expr.val_isZero ha.free hcond.1] using h.2 a ha⟩

theorem ends_insertSide {copy : State} {f : Focus σ} (ht : focus.Tidy) (hown : focus.Own I f)
    (hholds : ∀ a, I.Solves a f.state.constraints → a.val condition ≠ 0)
    (hlt : copy.id < f.executor.nextStateId) (hcopy : FailingSide I focus condition copy) :
    (do
      let maxDepth := (← executor).config.maxDepth
      if maxDepth ≠ 0 ∧ maxDepth ≤ (← state).depth then
        terminateEarly "max-depth exceeded"
        insertState copy
        let _ ← visit copy.id (terminateEarly "max-depth exceeded")
        return (none, none)
      insertState copy
      return (some .current, some (.forked copy.id)) : Exec σ Sides).Ends (fun _ ↦ True) f
        (Forked I focus condition) := by
  have hid : focus.executor.nextStateId ≤ copy.id := Nat.le_of_eq hcopy.id_eq.symm
  have hstart : focus.Spread I (fun b a ↦ I.Solves a focus.state.constraints ∧
      ∀ id, b = .forked id → id = focus.executor.nextStateId ∧ a.val condition = 0) focus :=
    .refl ht fun a ha ↦ ⟨ha, nofun⟩
  have hinsert : ∀ {f' : Focus σ} {E : Prop}, f.Own I f' → (f'.Going → E) →
      focus.Spread I (fun b a ↦ sideBound I focus condition b a ∧ (b = .current → E))
        { f' with executor := { f'.executor with states := f'.executor.states.insert copy.id copy } } := by
    intro f' E hf' hE
    have hsides : focus.Spread I (fun b a ↦ sideBound I focus condition b a ∧ (b = .current → E)) f' :=
      (hstart.work (P := fun a ↦ a.val condition ≠ 0 ∧ E) (hown.trans hf') fun hg a ha ↦
        ⟨hholds a (hf'.narrower a ha), hE hg⟩).mono fun _ _ hb ↦
          ⟨⟨hb.1.1, fun heq ↦ (hb.2 heq).1, hb.1.2⟩, fun heq ↦ (hb.2 heq).2⟩
    exact hsides.insert ⟨hid, Nat.lt_of_lt_of_le hlt hf'.next_le⟩ hcopy.part fun _ ha ↦ ⟨hcopy.bound ha, nofun⟩
  refine ends_bind_ok rfl (ends_bind_ok rfl ?_)
  split
  · have hend : (terminateEarly "max-depth exceeded" : Exec σ Unit).Stays I False := stays_terminateWith _ _
    have hquits : (terminateEarly "max-depth exceeded" : Exec σ Unit).Quits := quits_terminateWith _ _
    refine ends_bind (Yields.and (hquits f) (hend f)) ?_ (by rintro _ _ ⟨_, ⟨⟩, -⟩)
    rintro _ f' ⟨_, ⟨⟩, hended, h'⟩
    have hspread := hinsert (E := False) h'.1.toOwn hended
    refine ends_bind_ok rfl (ends_bind (P := fun r f ↦ (∃ o, r = .ok o) ∧ focus.Spread I (fun _ _ ↦ False) f)
      (ends_visit (fun hnone ↦ ?_) fun s hs ↦ Ends.mono (Yields.and (hquits _) (hend _)) ?_)
      (fun _ _ h ↦ ends_pure (.ended h.2)) fun _ _ h ↦ (nomatch h.1))
    · exact nomatch Std.TreeMap.getElem?_insert_self.symm.trans hnone
    · rintro _ g ⟨_, rfl, hended', h⟩
      refine ⟨⟨_, rfl⟩, (hspread.visit (P := fun _ ↦ False) hid hs h.1.toOwn fun hg ↦ (hended' hg).elim).mono
        fun b a hb ↦ ?_⟩
      cases b with
      | current => exact hb.1.2 rfl
      | forked id => exact hb.2 (by rw [(hb.1.1.2.2 id rfl).1, hcopy.id_eq])
  · exact ends_bind_ok rfl (ends_pure (.both hcopy.id_eq hlt
      ((hinsert (E := True) (.refl I f) fun _ ↦ trivial).mono fun _ _ hb ↦ hb.1)))

theorem ends_bothSides {child : State} {g : Focus σ} (ht : focus.Tidy)
    (hvalid : focus.state.constraints.Valid) (hcond : condition.IsTruth)
    (hfree : internal = true ∨ focus.executor.Unled) (hcopy : Copies I focus child g) :
    (do
      recordSide true internal
      addConstraint condition
      let (result, child) ← within child do
        recordSide false internal
        addConstraint condition.isZero
      MonadExcept.ofExcept result
      let maxDepth := (← executor).config.maxDepth
      if maxDepth ≠ 0 ∧ maxDepth ≤ (← state).depth then
        terminateEarly "max-depth exceeded"
        insertState child
        let _ ← visit child.id (terminateEarly "max-depth exceeded")
        return (none, none)
      insertState child
      return (some .current, some (.forked child.id)) : Exec σ Sides).Ends (fun _ ↦ True) g
        (Forked I focus condition) := by
  have hrecorded : focus.Own I (g.recorded true internal) := hcopy.own.recorded hfree
  refine ends_bind_ok (run_recordSide true internal) ?_
  refine ends_bind ((ends_addConstraint_solo (hrecorded.part.valid hvalid) hcond.1).and
    (concerns_addConstraint condition _)) (fun _ g₁ h₁ ↦ ?_) fun e _ h ↦
      .failed (h.2 e rfl) (hrecorded.trans h.1.1.1.toOwn)
  have hnext : g.executor.nextStateId ≤ g₁.executor.nextStateId :=
    Focus.executor_recorded g ▸ h₁.1.1.1.next_le
  refine ends_bind (ends_failingSide hvalid hcond hfree hcopy (hrecorded.trans h₁.1.1.1.toOwn) hnext) ?_ ?_
  · rintro ⟨result, copy⟩ f ⟨_, _, ⟨⟩, herror, hown, hstate, hlt, hfailing⟩
    refine ends_bind (P := fun r f' ↦ r = result ∧ f' = f) (ends_ofExcept ⟨rfl, rfl⟩) ?_ ?_
    · rintro _ f ⟨-, rfl⟩
      exact ends_insertSide ht hown (hstate ▸ h₁.1.2) hlt hfailing
    · rintro e _ ⟨rfl, rfl⟩
      exact .failed (herror e rfl) hown
  · rintro _ _ ⟨_, _, ⟨⟩, -⟩

theorem ends_split_forked (ht : focus.Tidy) (hvalid : focus.state.constraints.Valid)
    (hcond : condition.IsTruth) (hfree : internal = true ∨ focus.executor.Unled) :
    (split condition internal).Ends (fun _ ↦ True) focus (Forked I (focus.afterForks 1) condition) := by
  refine ends_bind_ok (f := focus.afterForks 1) rfl ?_
  have ht := ht.afterForks 1
  refine ends_bind (ends_spawn_copies (I := I)) ?_ fun _ _ h ↦ (nomatch h)
  rintro child f ⟨_, ⟨⟩, hcopy⟩
  refine ends_bind_ok rfl (ends_bind_ok rfl ?_)
  dsimp only
  split
  · rename_i seeds hseeds
    have hne : (focus.afterForks 1).executor.seeds.isEmpty = false :=
      Bool.eq_false_iff.2 fun hempty ↦
        nomatch (Focus.isEmpty_seeds_of_getElem? hseeds).symm.trans (hcopy.own.steady.seeds hempty)
    refine ends_bind_ok rfl ?_
    split
    · split
      · exact ends_bothSides ht hvalid hcond hfree (hcopy.withSeeds hne _)
      · refine ends_bind_ok rfl ?_
        exact ends_bothSides ht hvalid hcond hfree (hcopy.withSeeds hne _)
    · refine ends_bind_ok rfl ?_
      split
      · exact ends_bothSides ht hvalid hcond hfree (hcopy.withSeeds hne _)
      · refine ends_bind_ok rfl ?_
        exact ends_bothSides ht hvalid hcond hfree (hcopy.withSeeds hne _)
  · exact ends_bothSides ht hvalid hcond hfree hcopy

/-- A fork makes of a state what its solutions make of it, and if it divides it the sides have no solution
in common. -/
theorem goes_fork (hcond : condition.IsTruth) (internal : Bool) :
    (fork condition internal : Exec σ Sides).Goes I twins True False := by
  have hquery : (query (Solver.evaluate · condition) : Exec σ Validity).Keeps I fun _ ↦ True :=
    keeps_query_any fun _ hc hsat ↦ (Solver.answers_evaluate hc hsat hcond.1).mono fun _ _ ↦ trivial
  refine goes_bind hquery (stays_query _).goes fun v _ focus hf ht _ hgoing ↦ ?_
  refine ends_bind (P := Restricted I twins internal focus)
    (ends_restrict_moves hf.state.valid hcond (hgoing trivial) v) (fun v f h ↦ ?_) fun _ _ h ↦ ?_
  · cases h with
    | unsettled hfree =>
      have hsolo : focus.Own I (focus.afterForks 1) := (focus.solo_afterForks 1).toOwn
      exact ((ends_split_forked ht hf.state.valid hcond hfree).and
        (ends_split_booked hcond.1)).mono fun _ _ h ↦ ⟨⟨.trans (.own hsolo) (h.1.moves (hgoing trivial)), h.2⟩, nofun⟩
    | taken side h =>
      cases side with
      | true => exact ends_bind_ok (run_recordSide true internal) (ends_pure ⟨h.mono False.elim, nofun⟩)
      | false => exact ends_bind_ok (run_recordSide false internal) (ends_pure ⟨h.mono False.elim, nofun⟩)
  · cases h with
    | failed h => exact ⟨h.mono fun he ↦ ⟨_, rfl, he⟩, nofun⟩

theorem goes_forkOn (branch : Branch) (hcond : condition.IsTruth) (internal : Bool) :
    (forkOn branch condition internal : Exec σ Sides).Goes I twins False False := by
  refine goes_bind (keeps_onBranch branch (keeps_fork hcond internal))
    (goes_onBranch branch (keeps_fork hcond internal) (goes_fork hcond internal)) fun o _ ↦ ?_
  split <;> exact (stays_pure _).goes

end Exec

end Symex
