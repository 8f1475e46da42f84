import Symex.Proofs.Guidance.Forks

namespace Symex

open Checked

variable {σ α β : Type} {o : Outset} {held : List State} {going own p : Prop} {focus : Focus σ}
  {c : ConstraintSet}

namespace Exec

variable {x : Exec σ α} {Q : α → Focus σ → Prop}

/-! ## Loops -/

theorem GuidesAt.and_leaves {own : Prop} (hx : x.GuidesAt o held focus p Q) (hl : x.Leaves own) :
    x.GuidesAt o held focus p fun a f ↦ Q a f ∧ focus.Unmoved own f :=
  Ends.mono (Ends.and hx (hl focus)) fun _ _ h ↦
    ⟨h.1.1, fun a ha ↦ ⟨(h.1.2.1 a ha).1, (h.1.2.1 a ha).2, h.2⟩, h.1.2.2⟩

theorem guidesAt_foldlM {γ : Type} {body : β → γ → Exec σ β} {l : List γ} {b : β} {J : β → Focus σ → Prop}
    (hf : focus.Guided o held p True) (h : J b focus)
    (hstep : ∀ x ∈ l, ∀ b f, f.Guided o held p True → J b f → (body b x).GuidesAt o held f p J) :
    (l.foldlM body b).GuidesAt o held focus p J := by
  induction l generalizing b focus with
  | nil => exact guidesAt_pure hf h
  | cons x l ih =>
    rw [List.forall_mem_cons] at hstep
    rw [List.foldlM_cons]
    exact guidesAt_bind (hstep.1 b focus hf h) fun b' f hf hb' ↦ ih hf hb' hstep.2

theorem guidesAt_mapM {γ : Type} {f : γ → Exec σ β} {l : List γ} {T : β → Prop} {J : Focus σ → Prop}
    (hf : focus.Guided o held p True) (h : J focus)
    (hstep : ∀ x ∈ l, ∀ g, g.Guided o held p True → J g → (f x).GuidesAt o held g p fun b g' ↦ T b ∧ J g') :
    (l.mapM f).GuidesAt o held focus p fun r g ↦ (∀ b ∈ r, T b) ∧ J g := by
  induction l generalizing focus with
  | nil => exact guidesAt_pure hf ⟨by simp, h⟩
  | cons x l ih =>
    rw [List.forall_mem_cons] at hstep
    rw [List.mapM_cons]
    refine guidesAt_bind (hstep.1 focus hf h) fun b g hg hb ↦ ?_
    exact guidesAt_bind (ih hg hb.2 hstep.2) fun r g' hg' hr ↦
      guidesAt_pure hg' ⟨List.forall_mem_cons.2 ⟨hb.1, hr.1⟩, hr.2⟩

theorem guidesAt_forIn {γ : Type} {body : γ → PUnit → Exec σ (ForInStep PUnit)} {l : List γ}
    {J : List γ → Focus σ → Prop} (hf : focus.Guided o held p True) (h : J l focus)
    (hstep : ∀ x rest f, f.Guided o held p True → J (x :: rest) f →
      (body x ⟨⟩).GuidesAt o held f p fun r f' ↦ r = .yield ⟨⟩ ∧ J rest f') :
    (forIn l ⟨⟩ body : Exec σ PUnit).GuidesAt o held focus p fun _ _ ↦ True := by
  induction l generalizing focus with
  | nil => exact guidesAt_pure hf trivial
  | cons x l ih =>
    rw [List.forIn_cons]
    refine guidesAt_bind (hstep x l focus hf h) ?_
    rintro _ f hf ⟨rfl, hrest⟩
    exact ih hf hrest

end Exec

/-! ## Copies -/

/-- States that have the constraints `c` are at all of these places, and came up after the work started or are
the one worked on. -/
def Focus.Peoples (o : Outset) (c : ConstraintSet) (f : Focus σ) (arms : List Branch) : Prop :=
  ∀ b ∈ arms, o.Fresh b ∧ ∃ s, f.stateAt? b = some s ∧ s.constraints = c

namespace Focus

variable {f f' : Focus σ} {arms : List Branch} {s : State}

theorem Peoples.of_unmoved (h : f.Peoples o c arms) (hf : f.Unmoved True f') : f'.Peoples o c arms := fun b hb ↦ by
  rw [hf.stateAt?_eq b]
  exact h b hb

theorem Peoples.of_states (h : f.Peoples o c arms) (hstate : f'.state.constraints = f.state.constraints)
    (hstates : ∀ (id : StateId), f'.executor.states[id]? = f.executor.states[id]? ∨
      ∃ s, f'.executor.states[id]? = some s ∧ s.constraints = c) : f'.Peoples o c arms := by
  intro b hb
  obtain ⟨hfresh, s, hs, heq⟩ := h b hb
  refine ⟨hfresh, ?_⟩
  cases b with
  | current =>
    obtain rfl := Option.some.inj hs
    exact ⟨f'.state, rfl, hstate.trans heq⟩
  | forked id =>
    obtain hid | hid := hstates id
    · exact ⟨s, hid.trans hs, heq⟩
    · exact hid

theorem Peoples.insert (h : f.Peoples o c arms) (hs : s.constraints = c) (hfresh : o.next ≤ s.id) :
    ({ f with executor := { f.executor with states := f.executor.states.insert s.id s } } : Focus σ).Peoples o c
      (arms ++ [.forked s.id]) := by
  have hold : ({ f with executor := { f.executor with states := f.executor.states.insert s.id s } } :
      Focus σ).Peoples o c arms := by
    refine h.of_states rfl fun id ↦ ?_
    dsimp only
    rw [getElem?_insert_state]
    split
    · exact .inr ⟨s, rfl, hs⟩
    · exact .inl rfl
  intro b hb
  rcases List.mem_append.1 hb with hb | hb
  · exact hold b hb
  · obtain rfl := List.mem_singleton.1 hb
    exact ⟨hfresh, s, Std.TreeMap.getElem?_insert_self, hs⟩

end Focus

namespace Exec

variable {x : Exec σ α} {Q : α → Focus σ → Prop} {arms : List Branch} {b : Branch}

theorem guidesAt_insertState (hf : focus.Guided o (child :: held) p True) (hfresh : o.next ≤ child.id)
    (hchild : child.constraints = c) (harms : focus.Peoples o c arms) : (do
      insertState child
      return .forked child.id : Exec σ Branch).GuidesAt o held focus p fun b f ↦ f.Peoples o c (arms ++ [b]) :=
  ends_bind_ok rfl (guidesAt_pure hf.insert (harms.insert hchild hfresh))

theorem ends_visit_spawn {id : StateId} (hf : focus.Guided o held p True) (harms : focus.Peoples o c arms)
    (hid : .forked id ∈ arms) : (visit id spawn).Ends (fun _ ↦ True) focus fun r f ↦
      ∃ child, r = .ok (some child) ∧ f.state.id = focus.state.id ∧ f.Guided o (child :: held) p True ∧
        o.next ≤ child.id ∧ child.constraints = c ∧ f.Peoples o c arms := by
  obtain ⟨hfresh, s, hs, heq⟩ := harms _ hid
  have hs : focus.executor.states[id]? = some s := hs
  refine ends_visit (fun hnone ↦ nomatch hnone.symm.trans hs) fun s' hs' ↦ ?_
  obtain rfl := Option.some.inj (hs.symm.trans hs')
  refine (ends_spawn_guided (hf.enter hfresh hs)).mono ?_
  rintro _ f ⟨child, rfl, h⟩
  have hname : f.state.id = id := h.stays.id_eq.trans (hf.executor.states id s hs).id_eq
  have hgoing : p → focus.state.id ∉ f.executor.removed := by
    intro hp
    rw [h.removed_eq]
    exact hf.going hp
  have hleft := (h.guided.perm (.swap ..)).leave hgoing
  rw [hname] at hleft
  refine ⟨child, rfl, rfl, hleft, h.fresh, h.constraints_eq.trans heq, harms.of_states rfl fun id' ↦ ?_⟩
  dsimp only
  rw [Focus.getElem?_insert_state, h.states_eq, Focus.getElem?_erase_state]
  split
  · exact .inr ⟨f.state, rfl, h.stays.constraints_eq.trans heq⟩
  · exact .inl rfl

theorem guidesAt_duplicate (hf : focus.Guided o held p True) (harms : focus.Peoples o c arms) (hb : b ∈ arms) :
    (duplicate b).GuidesAt o held focus p fun b' f ↦ f.Peoples o c (arms ++ [b']) := by
  unfold duplicate
  dsimp only
  cases b with
  | current =>
    obtain ⟨-, s, hs, heq⟩ := harms _ hb
    obtain rfl := Option.some.inj hs
    refine ends_bind (ends_spawn_guided hf) ?_ fun _ _ h ↦ nomatch h
    rintro child f ⟨_, ⟨⟩, h⟩
    have harms' : f.Peoples o c arms := harms.of_states h.stays.constraints_eq fun id ↦ .inl (by rw [h.states_eq])
    exact (guidesAt_insertState h.guided h.fresh (h.constraints_eq.trans heq) harms').after h.stays.id_eq
  | forked id =>
    refine ends_bind (ends_visit_spawn hf harms hb) ?_ fun _ _ h ↦ nomatch h
    rintro _ f ⟨child, ⟨⟩, hid, hf', hfresh, hchild, harms'⟩
    exact ends_bind_ok rfl ((guidesAt_insertState hf' hfresh hchild harms').after hid)

theorem guidesAt_arms (hf : focus.Guided o held p True) (count : Nat) :
    (Exec.arms count).GuidesAt o held focus p fun l f ↦ ∃ arms, f.Peoples o focus.state.constraints arms ∧
      .current ∈ arms ∧ ∀ b, some b ∈ l → b ∈ arms := by
  have hcurrent : focus.Peoples o focus.state.constraints [.current] := by
    intro b hb
    obtain rfl := List.mem_singleton.1 hb
    exact ⟨trivial, focus.state, rfl, rfl⟩
  have hdraw (count : Nat) {f : Focus σ} (hf : f.Guided o held p True) :=
    (guides_draw (·.index count) held f hf).and_leaves (leaves_draw _ : Leaves True _)
  refine ends_bind_ok rfl ?_
  split
  · refine guidesAt_bind (hdraw count hf) fun chosen f hf h ↦ guidesAt_pure hf ?_
    refine ⟨[.current], hcurrent.of_unmoved h.2, List.mem_singleton_self _, fun b hb ↦ ?_⟩
    obtain ⟨i, -, hi⟩ := List.mem_map.1 hb
    split at hi
    · exact Option.some.inj hi ▸ List.mem_singleton_self _
    · cases hi
  · refine ends_bind_ok rfl ?_
    refine guidesAt_bind (p := p) (guidesAt_foldlM (J := fun (all : Array Branch) f ↦
      f.Peoples o focus.state.constraints all.toList ∧ .current ∈ all.toList) ?_ ⟨hcurrent, by simp⟩ ?_) ?_
    · exact hf.aligns ⟨rfl, rfl, rfl, rfl, rfl, rfl⟩
    · intro i _ all f hf hall
      refine guidesAt_bind (hdraw (i + 1) hf) fun parent f₁ hf₁ h₁ ↦ ?_
      refine guidesAt_bind (guidesAt_duplicate hf₁ (hall.1.of_unmoved h₁.2) ?_) fun b f₂ hf₂ h₂ ↦
        guidesAt_pure hf₂ ?_
      · cases hp : all[parent]? with
        | none => exact hall.2
        | some b => exact Array.mem_def.1 (Array.mem_of_getElem? hp)
      · rw [Array.toList_push]
        exact ⟨h₂, List.mem_append_left _ hall.2⟩
    · intro all f hf h
      refine guidesAt_pure hf ⟨_, h.1, h.2, fun b hb ↦ ?_⟩
      obtain ⟨b', hb', heq⟩ := List.mem_map.1 hb
      exact Option.some.inj heq ▸ hb'

/-! ## Seeds of several states -/

theorem guides_armOf (conditions : List Expr) (seed : Seed) :
    (armOf conditions seed : Exec σ Nat).Guides o p p fun _ ↦ True := by
  unfold armOf
  split
  · exact guides_pure trivial
  · exact guides_draw _

theorem leaves_armOf (conditions : List Expr) (seed : Seed) : (armOf conditions seed : Exec σ Nat).Leaves True := by
  unfold armOf
  split
  · exact leaves_pure _
  · exact leaves_draw _

theorem guidesAt_seedArm {arm : Option Branch} {seeds : List Seed} (hf : focus.Guided o held False True)
    (harms : focus.Peoples o c arms) (harm : ∀ b, arm = some b → b ∈ arms)
    (hseeds : ∀ seed ∈ seeds, Inputs.all.Solves seed.assignment c) :
    (seedArm arm seeds).GuidesAt o held focus False fun out _ ↦ o.FreshAt out := by
  unfold seedArm
  dsimp only
  split
  · exact guidesAt_pure hf Outset.freshAt_none
  · rename_i b
    obtain ⟨hfresh, s, hs, heq⟩ := harms b (harm b rfl)
    have hout : o.FreshAt (some b) := by
      rintro _ ⟨⟩
      exact hfresh
    split
    · refine ends_bind_ok rfl ?_
      split
      · exact guidesAt_bind (guides_onBranch hfresh (guides_terminateEarly _) held focus hf) fun _ _ hf _ ↦
          guidesAt_pure hf Outset.freshAt_none
      · exact guidesAt_pure hf hout
    · cases b with
      | current =>
        obtain rfl := Option.some.inj hs
        refine ends_bind_ok rfl (ends_bind_ok rfl (ends_bind_ok rfl (guidesAt_pure ?_ hout)))
        exact hf.setSeeds_of_mem List.mem_cons_self (heq ▸ hseeds)
      | forked id =>
        have hs : focus.executor.states[id]? = some s := hs
        refine ends_bind_ok rfl (ends_bind_ok rfl (guidesAt_pure (hf.setSeeds (.inr ⟨s, hs⟩) fun t ht hid ↦ ?_) hout))
        rcases ht with ht | ht
        · have hnone := (hf.apart t ht).2.1
          rw [hid, hs] at hnone
          cases hnone
        · obtain rfl := Option.some.inj (hs.symm.trans ht)
          exact heq ▸ hseeds

theorem guidesAt_seedArms (hf : focus.Guided o held True True) (conditions : List Expr) {l : List (Option Branch)}
    (harms : focus.Peoples o c arms) (hcurrent : .current ∈ arms) (hl : ∀ b, some b ∈ l → b ∈ arms) :
    (seedArms conditions l).GuidesAt o held focus False fun outs _ ↦ ∀ out ∈ outs, o.FreshAt out := by
  refine ends_bind_ok rfl ?_
  split
  · refine guidesAt_pure hf.rest ?_
    rintro _ hb b rfl
    exact (harms b (hl b hb)).1
  · rename_i seeds hseeds
    have hsolves : ∀ seed ∈ seeds, Inputs.all.Solves seed.assignment c := by
      obtain ⟨-, s, hs, rfl⟩ := harms _ hcurrent
      obtain rfl := Option.some.inj hs
      exact hf.leads seeds hseeds
    refine ends_bind_ok rfl (ends_bind_ok rfl ?_)
    refine guidesAt_bind (guidesAt_mapM (T := fun q : Nat × Seed ↦ q.2 ∈ seeds) (J := (·.Peoples o c arms))
      (hf.dropSeeds focus.state.id).rest harms ?_) fun placed f hf h ↦ ?_
    · intro seed hseed f hf h
      refine guidesAt_bind ((guides_armOf conditions seed held f hf).and_leaves (leaves_armOf conditions seed))
        fun i f' hf' h' ↦ guidesAt_pure hf' ⟨hseed, h.of_unmoved h'.2⟩
    · refine (guidesAt_mapM (T := o.FreshAt) (J := (·.Peoples o c arms)) hf h.2 ?_).mono id fun _ _ h ↦ h.1
      intro q hq f hf hpeoples
      refine ((guidesAt_seedArm hf hpeoples (fun b hb ↦ ?_) ?_).and_leaves (leaves_seedArm q.1 _)).mono id
        fun _ _ h ↦ ⟨h.1, hpeoples.of_unmoved h.2⟩
      · exact hl b (hb ▸ List.fst_mem_of_mem_zipIdx hq)
      · intro seed hseed
        obtain ⟨q', hq', rfl⟩ := List.mem_map.1 hseed
        exact hsolves _ (h.1 q' (List.mem_filter.1 hq').1)

/-! ## Conditions -/

theorem guidesAt_addConstraints {pairs : List (Option Branch × Expr)} (hf : focus.Guided o held False True)
    (hcopies : focus.Copies c (pairs.map (·.1)))
    (hpairs : ∀ q ∈ pairs, o.FreshAt q.1 ∧ q.2.Determined o.apart ∧ q.2.width = 1 ∧
      ∃ a, Inputs.all.Solves a c ∧ a.val q.2 ≠ 0) :
    (forIn pairs PUnit.unit fun (arm, condition) _ ↦ do
      onSide arm (addConstraint condition)
      pure (ForInStep.yield PUnit.unit) : Exec σ PUnit).GuidesAt o held focus False fun _ _ ↦ True := by
  refine guidesAt_forIn (J := fun (rest : List (Option Branch × Expr)) f ↦ f.Copies c (rest.map (·.1)) ∧
    ∀ q ∈ rest, o.FreshAt q.1 ∧ q.2.Determined o.apart ∧ q.2.width = 1 ∧
      ∃ a, Inputs.all.Solves a c ∧ a.val q.2 ≠ 0) hf ⟨hcopies, hpairs⟩ ?_
  rintro ⟨arm, condition⟩ rest f hf ⟨hcopies, hpairs⟩
  obtain ⟨hdistinct, hrest⟩ := List.pairwise_cons.1 hcopies.distinct
  rw [List.forall_mem_cons] at hpairs
  obtain ⟨⟨hfresh, hdet, hw, hsat⟩, hpairs⟩ := hpairs
  refine guidesAt_bind (Q := fun _ f' ↦ f'.Copies c (rest.map (·.1))) ?_
    fun _ f' hf' h ↦ guidesAt_pure hf' ⟨rfl, h, hpairs⟩
  cases arm with
  | none => exact guidesAt_pure hf ⟨fun b hb ↦ hcopies.constraints_eq b (List.mem_cons_of_mem _ hb), hrest⟩
  | some b =>
    have hstate : ∀ {g : Focus σ}, f.stateAt? b = some g.state → g.state.constraints = c := fun h ↦
      hcopies.constraints_eq b (by simp) _ h
    have hadd := (firmAt_onBranch (q := True) (Q := fun _ _ ↦ True) (hfresh b rfl) hf fun held g hg hb ↦
      (guidesAt_addConstraint hg hdet hw (hstate hb ▸ hsat)).mono id fun _ _ _ ↦ trivial).guidesAt
    have hother : (onBranch b (addConstraint condition)).KeepsAt Inputs.all f fun _ f' ↦
        ∀ b', b' ≠ b → f'.stateAt? b' = f.stateAt? b' := by
      refine (ends_onBranch_sound hf.sound (leaves_addConstraint condition) fun g hg hb ↦ ?_).mono
        fun _ _ h ↦ ⟨h.1, fun _ _ ↦ h.2⟩
      exact keepsAt_addConstraint hg ⟨hdet.wellFormed, hw⟩ fun _ ↦ hstate hb ▸ hsat
    refine guidesAt_bind (hadd.and hother) fun _ f' hf' h ↦ guidesAt_pure hf' ⟨fun b' hb' s hs ↦ ?_, hrest⟩
    refine hcopies.constraints_eq b' (List.mem_cons_of_mem _ hb') s ?_
    rw [← hs, h.2 b' fun heq ↦ hdistinct _ hb' b rfl (by rw [heq])]

theorem guidesAt_branch {conditions : List Expr} (hf : focus.Guided o held True True)
    (hconditions : ∀ e ∈ conditions, e.Determined o.apart ∧ e.width = 1 ∧
      ∃ a, Inputs.all.Solves a focus.state.constraints ∧ a.val e ≠ 0) :
    (branch conditions).GuidesAt o held focus False fun arms _ ↦ ∀ arm ∈ arms, o.FreshAt arm := by
  unfold branch
  split
  · exact guidesAt_pure hf.rest (by simp)
  · refine guidesAt_bind ((guidesAt_arms hf _).and (keepsAt_arms hf.sound _)) ?_
    rintro l f hf ⟨⟨arms, hpeoples, hcurrent, hl⟩, hcopies⟩
    refine guidesAt_bind ((guidesAt_seedArms hf conditions hpeoples hcurrent hl).and
      (keepsAt_seedArms hf.sound conditions hcopies)) ?_
    rintro outs f hf ⟨hfresh, hcopies⟩
    refine guidesAt_bind (guidesAt_addConstraints hf (c := focus.state.constraints) ?_ ?_) fun _ f hf _ ↦
      guidesAt_pure hf hfresh
    · refine hcopies.sublist ?_
      rw [List.zip_eq_zip_take_min, List.map_fst_zip (by simp)]
      exact List.take_sublist _ _
    · intro q hq
      exact ⟨hfresh _ (List.of_mem_zip hq).1, hconditions _ (List.of_mem_zip hq).2⟩

theorem guides_branch_true {conditions : List Expr} (h : ∀ e ∈ conditions, e = .bool true) :
    (branch conditions : Exec σ _).Guides o True False fun arms ↦ ∀ arm ∈ arms, o.FreshAt arm := by
  intro held focus hf
  refine guidesAt_branch hf fun e he ↦ ?_
  rw [h e he]
  obtain ⟨a, ha⟩ := hf.spans.grounded.satisfiable
  exact ⟨Expr.determined_bool true, rfl, a, ha, by simp [Expr.bool]⟩

end Exec

end Symex
