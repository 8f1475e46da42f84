import Symex.Executor.Step
import Symex.Proofs.Feasibility.Instructions
import Symex.Proofs.Guidance.Calls

namespace Symex

open Checked

variable {σ α β : Type} {o : Outset} {held : List State} {p q : Prop} {focus : Focus σ}

/-! ## Merging -/

theorem State.Covers.like_le {K : MemoryObject → Prop} {L : Likeness} {s t m : State} (h : Covers K s t m)
    (hs : s.constraints.ClosedOn s.arrays) (ht : t.constraints.ClosedOn t.arrays) (hsL : s.like ≤ L)
    (htL : t.like ≤ L) : m.like ≤ L := fun a b hab ↦ by
  obtain ⟨-, hleft, hright⟩ := like_of_solves_iff hs ht h.arrays_eq h.solves_iff hab
  by_cases ha : Inputs.all.Solves a s.constraints
  · exact hsL (hleft ha)
  · exact htL (hright ha)

/-- One state is to take the place of a live one and of the one that is worked on. -/
structure Focus.Joins (o : Outset) (focus : Focus σ) (other merged : State) : Prop where
  id_eq : merged.id = other.id
  grounded : merged.Grounded fun _ ↦ True
  spans : o.next ≤ other.id → o.Spans merged
  solves : ∀ a, Inputs.all.Solves a other.constraints ∨ Inputs.all.Solves a focus.state.constraints →
    Inputs.all.Solves a merged.constraints

namespace Focus.Guided

variable {id : StateId} {other merged : State}

theorem meets_merge (hf : focus.Guided o held p True) (hother : focus.executor.states[id]? = some other) :
    Meets (other.merge focus.state) fun r ↦ ∀ merged, r = some merged → focus.Joins o other merged := by
  have hlive := hf.executor.states id other hother
  have hs := hf.spans
  have hspans : Meets (other.merge focus.state) fun r ↦ ∀ merged, r = some merged →
      o.next ≤ other.id → o.Spans merged := by
    by_cases hid : o.next ≤ other.id
    · have hold := hlive.spans (hlive.id_eq ▸ hid)
      refine (hold.grounded.meets_merge hs.grounded).mono fun r hr merged hmerged _ ↦ ?_
      have hcovers := hr merged hmerged
      exact ⟨hcovers.grounded,
        hcovers.like_le hold.grounded.closed hs.grounded.closed hold.like_le hs.like_le⟩
    · exact ends_true_iff.2 fun _ _ _ _ h ↦ absurd h hid
  refine (Checked.Ends.and (hlive.grounded.meets_merge hs.grounded) hspans).mono fun r hr merged hmerged ↦ ?_
  have hcovers := hr.1 merged hmerged
  exact ⟨hcovers.id_eq, hcovers.grounded, hr.2 merged hmerged, fun a ↦ (hcovers.solves_iff a).2⟩

theorem replace (hf : focus.Guided o held p True) (hother : focus.executor.states[id]? = some other)
    (hjoins : focus.Joins o other merged) :
    ({ focus with executor := { focus.executor with states := focus.executor.states.insert id merged } } :
      Focus σ).Guided o held p True := by
  have hlive := hf.executor.states id other hother
  have hname : merged.id = id := hjoins.id_eq.trans hlive.id_eq
  have hne : ∀ s ∈ focus.state :: held, id ≠ s.id := by
    intro s hs heq
    have hnone := (hf.apart s hs).2.1
    rw [← heq, hother] at hnone
    cases hnone
  refine ⟨⟨hf.executor.exact, hf.executor.supplies, hf.executor.constants, hf.executor.next_le, fun id' s hs ↦ ?_⟩,
    fun s hs ↦ ?_, hf.rests, hf.nodup, fun id' l hl ↦ ?_, hf.going, hf.own⟩
  · rw [getElem?_insert_state] at hs
    split at hs
    · rename_i heq
      obtain rfl := Option.some.inj hs
      subst heq
      refine ⟨hname, hlive.lt, hjoins.grounded, fun h ↦ hjoins.spans (hlive.id_eq.symm ▸ h), ?_⟩
      refine hlive.rests.imp (fun h ↦ hjoins.id_eq ▸ h) fun h l hl seed hseed ↦ ?_
      exact hjoins.solves _ (.inl (h l (hjoins.id_eq ▸ hl) seed hseed))
    · have h := hf.executor.states id' s hs
      exact ⟨h.id_eq, h.lt, h.grounded, h.spans, h.rests⟩
  · refine ⟨(hf.apart s hs).1, ?_, (hf.apart s hs).2.2⟩
    change (focus.executor.states.insert id merged)[s.id]? = none
    rw [getElem?_insert_state, if_neg (hne s hs)]
    exact (hf.apart s hs).2.1
  · refine (hf.keys id' l hl).imp_right fun ⟨s, hs⟩ ↦ ?_
    change ∃ s, (focus.executor.states.insert id merged)[id']? = some s
    rw [getElem?_insert_state]
    split
    · exact ⟨_, rfl⟩
    · exact ⟨s, hs⟩

theorem joinSeeds {more : List Seed} (hf : focus.Guided o held True True)
    (hother : focus.executor.states[id]? = some other) (hjoins : focus.Joins o other merged)
    (hmore : focus.executor.seeds[focus.state.id]? = some more) :
    ({ focus with executor := { focus.executor with
      states := focus.executor.states.insert id merged
      seeds := (focus.executor.seeds.erase focus.state.id).insert id
        (focus.executor.seeds.getD id [] ++ more) } } : Focus σ).Guided o held True True := by
  have hlive := hf.executor.states id other hother
  have hreplaced := hf.replace hother hjoins
  have hself : (focus.executor.states.insert id merged)[id]? = some merged := Std.TreeMap.getElem?_insert_self
  refine hreplaced.withSeeds fun id' l hl ↦ ?_
  rw [getElem?_insert_state] at hl
  split at hl
  · rename_i heq
    subst heq
    obtain rfl := Option.some.inj hl
    refine .inr ⟨.inr ⟨merged, hself⟩, hlive.rests.imp (fun h ↦ hlive.id_eq ▸ h) fun hleads s hs hid seed hseed ↦ ?_⟩
    obtain rfl : s = merged := by
      rcases hs with hs | hs
      · have hnone := (hreplaced.apart s hs).2.1
        rw [hid] at hnone
        exact nomatch hself.symm.trans hnone
      · exact Option.some.inj (hs.symm.trans hself)
    rcases List.mem_append.1 hseed with hseed | hseed
    · rw [Std.TreeMap.getD_eq_getD_getElem?] at hseed
      cases hseeds : focus.executor.seeds[id]? with
      | none =>
        rw [hseeds] at hseed
        cases hseed
      | some l =>
        rw [hseeds] at hseed
        exact hjoins.solves _ (.inl (hleads l (hlive.id_eq.symm ▸ hseeds) seed hseed))
    · exact hjoins.solves _ (.inr (hf.leads more hmore seed hseed))
  · rw [getElem?_erase_state] at hl
    split at hl
    · cases hl
    · exact .inl hl

end Focus.Guided

theorem Focus.Joins.withNode {other merged : State} (h : focus.Joins o other merged) (node : Option NodeId) :
    focus.Joins o other { merged with node } :=
  ⟨h.id_eq, h.grounded.withNode node, fun hid ↦ ⟨(h.spans hid).grounded.withNode node, (h.spans hid).like_le⟩,
    h.solves⟩

namespace Exec

theorem guides_mergeWith (ids : List StateId) : (mergeWith ids : Exec σ Unit).Guides o True False fun _ ↦ True := by
  induction ids with
  | nil => exact (guides_pure trivial).relax id False.elim
  | cons id rest ih =>
    intro held focus hf
    refine ends_bind_ok rfl ?_
    dsimp only
    split
    · exact ih held focus hf
    · rename_i other hother
      refine guidesAt_bind (guidesAt_lift (hf.meets_merge hother) hf) ?_
      rintro merged? focus hf ⟨rfl, hmerge⟩
      cases merged? with
      | none => exact ih held focus hf
      | some merged =>
        have hjoins := hmerge merged rfl
        have hend {e : Executor σ} (h : ({ focus with executor := e } : Focus σ).Guided o held True True) : (do
            set ({ focus with executor := e } : Focus σ)
            terminate : Exec σ Unit).GuidesAt o held focus False fun _ _ ↦ True :=
          ends_bind_ok rfl (GuidesAt.after (carries_terminate.guides (fun _ ↦ True) (fun _ ↦ trivial) held _ h)
            (show _ = focus.state.id from rfl))
        -- with and without seeds of the state that is merged into the other one
        have hreplaced {merged : State} (hjoins : focus.Joins o other merged) (tree : ProcessTree) :=
          (hf.replace hother hjoins).aligns (e := { focus.executor with
            states := focus.executor.states.insert id merged, tree }) ⟨rfl, rfl, rfl, rfl, rfl, rfl⟩
        have hjoined {merged : State} {more : List Seed} (hjoins : focus.Joins o other merged) (tree : ProcessTree)
            (hmore : focus.executor.seeds[focus.state.id]? = some more) :=
          (hf.joinSeeds hother hjoins hmore).aligns (e := { focus.executor with
            states := focus.executor.states.insert id merged
            seeds := (focus.executor.seeds.erase focus.state.id).insert id (focus.executor.seeds.getD id [] ++ more)
            tree }) ⟨rfl, rfl, rfl, rfl, rfl, rfl⟩
        dsimp only
        split
        · refine guidesAt_bind (guidesAt_lift (P := fun _ ↦ True) (ends_true_iff.2 fun _ _ ↦ trivial) hf) ?_
          rintro ⟨node, tree⟩ focus hf ⟨rfl, -⟩
          refine ends_bind_ok rfl (hend ?_)
          split
          · exact hreplaced (hjoins.withNode _) tree
          · exact hjoined (hjoins.withNode _) tree ‹_›
        · refine ends_bind_ok rfl (hend ?_)
          split
          · exact hreplaced hjoins _
          · exact hjoined hjoins _ ‹_›

/-! ## Jumps -/

theorem guides_jump (block : BlockId) : (jump block : Exec σ Unit).Guides o True False fun _ ↦ True := by
  have hdone : (pure () : Exec σ Unit).Guides o True False fun _ ↦ True := (guides_pure trivial).relax id False.elim
  refine guides_bind (guides_updateState fun s hs ↦
    hs.grounded.meets_modifyThread fun t ht ↦ Checked.ends_pure ht) fun _ _ ↦ ?_
  refine guides_bind guides_executor fun e _ ↦ ?_
  split
  · refine guides_bind guides_state fun s _ ↦ guides_bind (guides_lift_any _) fun t _ ↦ ?_
    refine guides_bind (guides_lift_any _) fun callee _ ↦ ?_
    split
    · exact hdone
    · refine guides_bind (R := fun _ ↦ True) ?_ fun ids _ ↦ guides_mergeWith ids
      exact guides_bind guides_executor fun e _ ↦ guides_bind guides_state fun s _ ↦
        guides_bind (guides_lift_any _) fun t _ ↦ guides_pure trivial
  · exact hdone

theorem guides_jumps {targets : List (BlockId × Expr)} {arms : List (Option Branch)}
    (harms : ∀ arm ∈ arms, o.FreshAt arm) : (forIn (arms.zip targets) PUnit.unit fun x _ ↦ do
      onSide x.1 (jump x.2.1)
      pure (ForInStep.yield PUnit.unit) : Exec σ PUnit).Guides o False False fun _ ↦ True :=
  guides_forIn fun _ hmem ↦ guides_bind (guides_onSide (harms _ (List.of_mem_zip hmem).1) (guides_jump _))
    fun _ _ ↦ guides_pure rfl

/-- All conditions are determined. -/
abbrev Told (L : Likeness) (targets : List (BlockId × Expr)) : Prop :=
  ∀ t ∈ targets, t.2.Determined L ∧ t.2.width = 1

theorem meets_addTarget {L : Likeness} {targets : List (BlockId × Expr)} {condition : Expr}
    (htargets : Told L targets) (block : BlockId) (hc : condition.Determined L) (hw : condition.width = 1) :
    Meets (addTarget targets block condition) (Told L) := by
  unfold addTarget
  split
  · refine ends_mapM (F := fun _ ↦ True) fun t ht ↦ ?_
    obtain ⟨hdet, hwidth⟩ := htargets t ht
    dsimp only
    split
    · exact Checked.ends_bind (hdet.mkBinary .or hc) fun e he ↦ Checked.ends_pure ⟨he.1, he.2.trans hwidth⟩
    · exact Checked.ends_pure ⟨hdet, hwidth⟩
  · refine Checked.ends_pure fun t ht ↦ ?_
    rcases List.mem_append.1 ht with ht | ht
    · exact htargets t ht
    · obtain rfl := List.mem_singleton.1 ht
      exact ⟨hc, hw⟩

theorem guides_forIn_yield {γ : Type} {body : γ → β → Exec σ (ForInStep β)} {l : List γ} {b : β} {T : β → Prop}
    (hb : T b) (hbody : ∀ x ∈ l, ∀ b, T b → (body x b).Guides o p p fun r ↦ ∃ b', r = .yield b' ∧ T b') :
    (forIn l b body : Exec σ β).Guides o p p T := by
  induction l generalizing b with
  | nil => exact guides_pure hb
  | cons x l ih =>
    rw [List.forall_mem_cons] at hbody
    rw [List.forIn_cons]
    refine guides_bind (hbody.1 b hb) ?_
    rintro _ ⟨b', rfl, hb'⟩
    exact ih hb' hbody.2

theorem guides_switchTargets {value : Expr} (hvalue : value.Determined o.apart) (otherwise : BlockId)
    (cases : List (Nat × BlockId)) :
    (switchTargets value otherwise cases : Exec σ _).Guides o p p (Told o.apart) := by
  refine guides_bind (guides_forIn_yield (T := fun q : List (BlockId × Expr) × Expr ↦
    Told o.apart q.1 ∧ q.2.Determined o.apart ∧ q.2.width = 1) ?_ ?_) ?_
  · exact ⟨by simp, Expr.determined_bool true, rfl⟩
  · rintro ⟨case, block⟩ - ⟨targets, rest⟩ ⟨htargets, hrest, hw⟩
    refine guides_bind (guides_lift (Expr.meets_constant (L := o.apart) _ _)) fun number hnumber ↦ ?_
    refine guides_bind (guides_lift (hvalue.mkCompare .eq hnumber.1)) fun same hsame ↦ ?_
    refine guides_bind (guides_lift (hrest.mkBinary .and hsame.1.isZero)) fun rest' hrest' ↦ ?_
    refine guides_bind (guides_mayBeTrue hsame.1.wellFormed) fun possible _ ↦ ?_
    have hw' := hrest'.2.trans hw
    split
    · refine guides_bind (guides_lift (meets_addTarget htargets block hsame.1 hsame.2)) fun targets' htargets' ↦ ?_
      exact guides_pure ⟨_, rfl, htargets', hrest'.1, hw'⟩
    · exact guides_pure ⟨_, rfl, htargets, hrest'.1, hw'⟩
  · rintro ⟨targets, rest⟩ ⟨htargets, hrest, hw⟩
    refine guides_bind (guides_mayBeTrue hrest.wellFormed) fun possible _ ↦ ?_
    dsimp only
    split
    · exact guides_bind (guides_lift (meets_addTarget htargets otherwise hrest hw)) fun _ h ↦ guides_pure h
    · exact guides_pure htargets

theorem guides_switch {value : Expr} (hvalue : value.Determined o.apart) (otherwise : BlockId)
    (cases : List (Nat × BlockId)) :
    (switch value otherwise cases : Exec σ Unit).Guides o True False fun _ ↦ True := by
  refine guides_bind (guides_toUnique hvalue) fun value hvalue ↦ ?_
  split
  · exact guides_jump _
  · intro held focus hf
    refine guidesAt_bind ((guides_switchTargets hvalue.1 otherwise cases held focus hf).and
      (keepsAt_switchTargets hf.sound hvalue.1.wellFormed otherwise cases)) fun targets f hf h ↦ ?_
    refine guidesAt_bind (guidesAt_branch hf fun e he ↦ ?_) fun arms f hf harms ↦ ?_
    · obtain ⟨t, ht, rfl⟩ := List.mem_map.1 he
      exact ⟨(h.1 t ht).1, (h.1 t ht).2, (h.2 t ht).2 trivial⟩
    · exact guides_bind (guides_jumps harms) (fun _ _ ↦ guides_pure trivial) held f hf

/-! ## Arithmetic -/

section

variable {lhs rhs value condition : Expr}

theorem guides_binary (op : BinOp) (hl : lhs.Determined o.apart) (hr : rhs.Determined o.apart) (r : Register) :
    (binary op lhs rhs r : Exec σ Unit).Guides o True False fun _ ↦ True := by
  have hwrite {p : Prop} : (do write r (← Expr.mkBinary op lhs rhs) : Exec σ Unit).Guides o p p fun _ ↦ True :=
    guides_bind (guides_lift (hl.mkBinary op hr)) fun _ h ↦ guides_write r h.1
  refine guides_bind guides_executor fun e _ ↦ ?_
  split
  · refine guides_bind (guides_fork hr.isZero hr.wellFormed.isZero.2 true) fun sides hsides ↦ ?_
    refine guides_bind (guides_onSide (q := True) hsides.1 (guides_fail _)) fun _ _ ↦ ?_
    exact guides_onSide hsides.2 hwrite
  · exact hwrite.relax id False.elim

/-! ## Intrinsics -/

theorem guides_assume (hcondition : condition.Determined o.apart) :
    (assume condition : Exec σ Unit).Guides o p p fun _ ↦ True := by
  refine guides_bind (guides_lift hcondition.mkTruth) fun condition hcondition held focus hf ↦ ?_
  have hs := hf.spans.grounded
  refine guidesAt_bind (guidesAt_query
    (Solver.answers_mustBeFalse hs.valid hs.satisfiable hcondition.1.wellFormed) hf) ?_
  rintro never f hf ⟨⟨solver, rfl⟩, hnever⟩
  split
  · exact guides_fail_bind _ held _ hf
  · rename_i h
    have hpossible : ∃ a, Inputs.all.Solves a focus.state.constraints ∧ a.val condition ≠ 0 := by
      simpa using mt hnever.2 h
    exact (guidesAt_addConstraint hf hcondition.1 hcondition.2 hpossible).mono id fun _ _ _ ↦ trivial

theorem guides_assert (hcondition : condition.Determined o.apart) (message : String) :
    (assert condition message : Exec σ Unit).Guides o True False fun _ ↦ True :=
  guides_bind (guides_lift hcondition.mkTruth) fun _ h ↦ guides_bind (guides_fork h.1 h.2 false) fun _ hsides ↦
    guides_onSide (q := True) hsides.2 (guides_fail _)

end

theorem guides_forkTwice (destination : Option Register) :
    (forkTwice destination : Exec σ Unit).Guides o True False fun _ ↦ True := by
  refine guides_bind (guides_branch_true (by simp)) fun arms harms ↦ ?_
  refine guides_bind (guides_forIn ?_) fun _ _ ↦ guides_pure trivial
  rintro ⟨arm, i⟩ hmem
  refine guides_bind (guides_onSide (q := True) (harms arm (List.fst_mem_of_mem_zipIdx hmem)) ?_) fun _ _ ↦
    guides_pure rfl
  exact guides_bind (guides_lift (Expr.meets_constant (L := o.apart) _ _)) fun _ h ↦ guides_writeResult _ h.1

theorem guides_newWaitList (destination : Option Register) : (do
    let (list, s) := (← state).newWaitList
    setState s
    writeResult destination (← Expr.constant list 64) : Exec σ Unit).Guides o p p fun _ ↦ True := by
  intro held focus hf
  have hs := hf.spans.grounded
  refine ends_bind_ok rfl (guidesAt_bind (guidesAt_setState hf ⟨⟨rfl, rfl, rfl⟩, hs.valid, hs.satisfiable, hs.closed,
    hs.names, hs.threads, hs.memory⟩) fun _ f hf _ ↦ ?_)
  refine (guides_bind (guides_lift (Expr.meets_constant (L := o.apart) _ _)) fun _ h ↦ ?_) held f hf
  exact guides_writeResult destination h.1

theorem guides_intrinsic (hall : ∀ x, o.object x) (i : Intrinsic) {arguments : List Expr}
    (harguments : ∀ e ∈ arguments, e.Determined o.apart) (destination : Option Register) :
    (intrinsic i arguments destination : Exec σ Unit).Guides o True False fun _ ↦ True := by
  unfold intrinsic
  -- in the order in which the intrinsics are listed there
  have hone {e : Expr} (h : ∀ x ∈ [e], x.Determined o.apart) : e.Determined o.apart := List.forall_mem_singleton.1 h
  have htwo {e f : Expr} (h : ∀ x ∈ [e, f], x.Determined o.apart) : e.Determined o.apart ∧ f.Determined o.apart := by
    simpa using h
  have hends {x : Exec σ Unit} (hx : x.Guides o True True fun _ ↦ True) : x.Guides o True False fun _ ↦ True :=
    hx.relax id False.elim
  split
  · exact guides_allocateSized hall (hone harguments) _ _ _
  · refine guides_bind (guides_lift ((htwo harguments).1.mkZext 64)) fun count hcount ↦ ?_
    refine guides_bind (guides_lift ((htwo harguments).2.mkZext 64)) fun size hsize ↦ ?_
    exact guides_bind (guides_lift (hcount.1.mkBinary .mul hsize.1)) fun _ h ↦
      guides_allocateSized hall h.1 _ _ _
  · exact guides_reallocate hall (htwo harguments).1 (htwo harguments).2 _
  · exact guides_free (hone harguments) _
  · exact guides_makeSymbolic hall _ (htwo harguments).1 (htwo harguments).2
  · exact hends (guides_assume (hone harguments))
  · exact guides_assert (hone harguments) _
  · exact guides_fail _
  · exact guides_terminateOnExit
  · exact guides_forkTwice _
  · refine hends (guides_bind (guides_knownArgument (hone harguments) _) fun enabled _ ↦
      guides_updateState fun s hs ↦ Checked.ends_pure ?_)
    have hg := hs.grounded
    exact ⟨⟨rfl, rfl, rfl⟩, hg.valid, hg.satisfiable, hg.closed, hg.names, hg.threads, hg.memory⟩
  · exact hends (guides_createThread (htwo harguments).1 (htwo harguments).2 _)
  · exact guides_exitThread
  · exact guides_schedule _
  · exact guides_sleep (hone harguments)
  · exact hends (guides_notify (hone harguments) _)
  · exact hends (guides_newWaitList destination)
  · exact guides_fail _

/-! ## Operands -/

/-- What the work comes to is in the state already. It changes nothing. -/
def Reads (o : Outset) (x : Exec σ α) (R : α → Prop) : Prop :=
  ∀ p held focus, focus.Guided o held p True → o.apart ≤ focus.state.like →
    x.GuidesAt o held focus p fun a f ↦ f = focus ∧ R a

/-- Work that starts before anything is told apart that the state does not tell apart. -/
def Acts (o : Outset) (x : Exec σ Unit) : Prop :=
  ∀ held focus, focus.Guided o held True True → o.apart ≤ focus.state.like →
    x.GuidesAt o held focus False fun _ _ ↦ True

section

variable {x : Exec σ α} {k : α → Exec σ β} {R R' : α → Prop} {T : β → Prop}

theorem reads_pure {a : α} (h : R a) : Reads o (pure a : Exec σ α) R := fun _ _ _ hf _ ↦ guidesAt_pure hf ⟨rfl, h⟩

theorem reads_fail (e : ExecError) : Reads o (fail e : Exec σ α) R := fun _ _ _ hf _ ↦ guidesAt_fail e hf

theorem reads_lift {c : Checked α} (h : Meets c R) : Reads o (liftM c : Exec σ α) R := fun _ _ _ hf _ ↦
  guidesAt_lift h hf

theorem reads_bind (hx : Reads o x R) (hk : ∀ a, R a → Reads o (k a) T) : Reads o (x >>= k) T := by
  intro p held focus hf hlike
  refine guidesAt_bind (hx p held focus hf hlike) ?_
  rintro a f hf ⟨rfl, ha⟩
  exact hk a ha p held f hf hlike

theorem reads_foldlM {γ : Type} {f : β → γ → Exec σ β} {l : List γ} {b : β} (hb : T b)
    (hf : ∀ x ∈ l, ∀ b, T b → Reads o (f b x) T) : Reads o (l.foldlM f b) T := by
  induction l generalizing b with
  | nil => exact reads_pure hb
  | cons x l ih =>
    rw [List.forall_mem_cons] at hf
    rw [List.foldlM_cons]
    exact reads_bind (hf.1 b hb) fun b' hb' ↦ ih hb' hf.2

theorem reads_mapM {γ : Type} {f : γ → Exec σ β} {l : List γ} (hf : ∀ x ∈ l, Reads o (f x) T) :
    Reads o (l.mapM f) fun r ↦ ∀ b ∈ r, T b := by
  induction l with
  | nil => exact reads_pure (by simp)
  | cons x l ih =>
    rw [List.forall_mem_cons] at hf
    rw [List.mapM_cons]
    exact reads_bind hf.1 fun b hb ↦ reads_bind (ih hf.2) fun r hr ↦ reads_pure (List.forall_mem_cons.2 ⟨hb, hr⟩)

theorem Reads.acts {k : α → Exec σ Unit} (hx : Reads o x R) (hk : ∀ a, R a → (k a).Acts o) : (x >>= k).Acts o := by
  intro held focus hf hlike
  refine guidesAt_bind (hx True held focus hf hlike) ?_
  rintro a f hf ⟨rfl, ha⟩
  exact hk a ha held f hf hlike

theorem Guides.acts {x : Exec σ Unit} (hx : x.Guides o True q fun _ ↦ True) : x.Acts o := fun held focus hf _ ↦
  (hx held focus hf).mono False.elim fun _ _ _ ↦ trivial

end

theorem reads_operand (r : Operand) : Reads o (operand r : Exec σ Expr) (Expr.Determined o.apart) := by
  intro p held focus hf hlike
  refine ends_bind_ok rfl ?_
  cases r with
  | register r =>
    refine ends_bind_ok rfl (guidesAt_bind (guidesAt_lift hf.spans.grounded.meets_frame hf) ?_)
    rintro frame f hf ⟨rfl, hframe⟩
    have hread : ∀ value, frame.read r f.executor.location = .ok value → value.Determined o.apart := by
      intro value h
      unfold Frame.read at h
      split at h
      · rename_i e he
        exact Except.ok.inj h ▸ (hframe.of_read? he).mono hlike
      · cases h
    cases hvalue : frame.read r f.executor.location with
    | ok value => exact guidesAt_pure hf ⟨rfl, hread value hvalue⟩
    | error e => exact guidesAt_throw e hf
  | constant c =>
    dsimp only
    split
    · rename_i value h
      obtain ⟨hwf, hconst⟩ := hf.executor.constants value (Array.mem_of_getElem? h)
      exact guidesAt_pure hf ⟨rfl, Expr.determined_of_isConst hwf hconst⟩
    · exact guidesAt_lift (Checked.ends_throw trivial) hf

theorem reads_pointer (r : Operand) : Reads o (pointer r : Exec σ Expr) (Expr.Determined o.apart) :=
  reads_bind (reads_operand r) fun _ h ↦ reads_lift ((h.mkZext 64).mono fun _ h ↦ h.1)

theorem reads_demandSameWidth (lhs rhs : Expr) : Reads o (demandSameWidth lhs rhs : Exec σ Unit) fun _ ↦ True := by
  unfold demandSameWidth
  split
  · exact reads_fail _
  · exact reads_pure trivial

theorem reads_cast (op : CastOp) {value : Expr} (hvalue : value.Determined o.apart) (width : Nat) :
    Reads o (cast op value width : Exec σ Expr) (Expr.Determined o.apart) := by
  have hzext : Reads o (liftM (Expr.mkZext value width) : Exec σ Expr) (Expr.Determined o.apart) :=
    reads_lift ((hvalue.mkZext width).mono fun _ h ↦ h.1)
  cases op with
  | trunc => exact reads_lift ((hvalue.mkExtract 0 width).mono fun _ h ↦ h.1)
  | zext => exact hzext
  | ptrToInt => exact hzext
  | intToPtr => exact hzext
  | sext => exact reads_lift ((hvalue.mkSext width).mono fun _ h ↦ h.1)
  | bitCast =>
    unfold cast
    dsimp only
    split
    · exact reads_pure hvalue
    · exact reads_fail _

theorem reads_elementAddress {base : Expr} (hbase : base.Determined o.apart) (indices : List (Operand × Nat))
    (offset : Nat) : Reads o (elementAddress base indices offset : Exec σ Expr) (Expr.Determined o.apart) := by
  refine reads_bind (reads_foldlM hbase ?_) fun address haddress ↦ ?_
  · rintro ⟨index, scale⟩ - address haddress
    refine reads_bind (reads_operand index) fun index hindex ↦ ?_
    refine reads_bind (reads_lift (hindex.mkSext 64)) fun index hindex ↦ ?_
    refine reads_bind (reads_lift (hindex.1.mkBinary .mul (Expr.determined_pointer scale))) fun distance hdistance ↦ ?_
    exact reads_lift ((haddress.mkBinary .add hdistance.1).mono fun _ h ↦ h.1)
  · split
    · exact reads_pure haddress
    · exact reads_lift ((haddress.mkBinary .add (Expr.determined_pointer offset)).mono fun _ h ↦ h.1)

end Exec

/-! ## Instructions -/

/-- Loads and stores need objects that are told apart by their keys. Others can bring up any object. -/
def Outset.Suits (o : Outset) : Instruction → Prop
  | .load .. => o.Keyed
  | .store .. => o.Keyed
  | _ => ∀ x, o.object x

namespace Exec

theorem acts_write {x : Exec σ Expr} (hx : Reads o x (Expr.Determined o.apart)) (r : Register) :
    (do write r (← x) : Exec σ Unit).Acts o :=
  hx.acts fun _ h ↦ (guides_write (p := True) r h).acts

theorem acts_access {access : Access} {address : Expr} (hkeys : o.Keyed) (haccess : access.Determined o.apart)
    (haddress : address.Determined o.apart) : (Exec.access access address : Exec σ Unit).Acts o :=
  fun _ _ hf hlike ↦ guidesAt_access hkeys hf hlike haccess haddress

theorem acts_instruction (i : Instruction) (hsuits : o.Suits i) : (instruction i : Exec σ Unit).Acts o := by
  unfold instruction
  cases i with
  | ret value =>
    refine Reads.acts (R := fun r ↦ ∀ e, r = some e → e.Determined o.apart) ?_ fun _ h ↦ (guides_ret h).acts
    cases value with
    | none => exact reads_pure nofun
    | some r =>
      rw [Option.mapM_some]
      exact reads_bind (reads_operand r) fun _ h ↦ reads_pure (by simpa using h)
  | br target => exact (guides_jump target).acts
  | condBr condition ifTrue ifFalse =>
    refine (reads_operand condition).acts fun condition hcondition ↦ ?_
    refine (reads_lift hcondition.mkTruth).acts fun condition hcondition ↦ Guides.acts (q := False) ?_
    refine guides_bind (guides_fork hcondition.1 hcondition.2 false) fun sides hsides ↦ ?_
    exact guides_bind (guides_onSide hsides.1 (guides_jump ifTrue)) fun _ _ ↦
      guides_onSide hsides.2 (guides_jump ifFalse)
  | switch condition otherwise cases =>
    exact (reads_operand condition).acts fun _ h ↦ (guides_switch h otherwise cases).acts
  | unreachable => exact Guides.acts (q := True) (guides_fail _)
  | call callee arguments destination =>
    refine (reads_mapM fun r _ ↦ reads_operand r).acts fun arguments harguments ↦ ?_
    cases callee with
    | function f => exact (guides_call (p := True) harguments hsuits f destination).acts
    | pointer r =>
      exact (reads_pointer r).acts fun _ h ↦ (guides_callPointer harguments hsuits h destination).acts
    | intrinsic i => exact (guides_intrinsic hsuits i harguments destination).acts
  | binary op lhs rhs destination =>
    refine (reads_operand lhs).acts fun lhs hl ↦ (reads_operand rhs).acts fun rhs hr ↦ ?_
    exact (reads_demandSameWidth lhs rhs).acts fun _ _ ↦ (guides_binary op hl hr destination).acts
  | icmp predicate lhs rhs destination =>
    refine (reads_operand lhs).acts fun lhs hl ↦ (reads_operand rhs).acts fun rhs hr ↦ ?_
    refine (reads_demandSameWidth lhs rhs).acts fun _ _ ↦ acts_write (reads_lift ?_) destination
    exact (hl.build predicate hr).mono fun _ h ↦ h.1
  | select condition ifTrue ifFalse destination =>
    refine (reads_operand condition).acts fun condition hcondition ↦ ?_
    refine (reads_lift hcondition.mkTruth).acts fun condition hcondition ↦ ?_
    refine (reads_operand ifTrue).acts fun t ht ↦ (reads_operand ifFalse).acts fun f hf ↦ ?_
    exact (reads_demandSameWidth t f).acts fun _ _ ↦
      acts_write (reads_lift (hcondition.1.mkSelect ht hf)) destination
  | cast op value width destination =>
    exact (reads_operand value).acts fun _ h ↦ acts_write (reads_cast op h width) destination
  | fbinary op lhs rhs destination =>
    refine (reads_operand lhs).acts fun _ hl ↦ (reads_operand rhs).acts fun _ hr ↦ ?_
    exact (guides_floatBinary (p := True) op hl hr destination).acts
  | fcmp predicate lhs rhs destination =>
    refine (reads_operand lhs).acts fun _ hl ↦ (reads_operand rhs).acts fun _ hr ↦ ?_
    exact (guides_floatCompare (p := True) predicate hl hr destination).acts
  | fcast op value width destination =>
    exact (reads_operand value).acts fun _ h ↦ (guides_floatCast (p := True) op h width destination).acts
  | alloca elementSize count destination =>
    refine (reads_pointer count).acts fun count hcount ↦ ?_
    refine (reads_lift ((Expr.determined_pointer _).mkBinary .mul hcount)).acts fun _ h ↦ ?_
    exact (guides_allocateSized hsuits h.1 _ _ _).acts
  | load address width destination =>
    exact (reads_pointer address).acts fun _ h ↦
      acts_access hsuits (show (Access.load width destination).Determined _ from trivial) h
  | store address value =>
    refine (reads_pointer address).acts fun _ ha ↦ (reads_operand value).acts fun value hv ↦ ?_
    exact acts_access hsuits (show (Access.store value).Determined _ from hv) ha
  | elementPtr base indices offset destination =>
    exact (reads_pointer base).acts fun _ hb ↦ acts_write (reads_elementAddress hb indices offset) destination
  | phi incoming destination =>
    refine Reads.acts (R := fun _ ↦ True) (fun _ _ _ hf _ ↦ ends_state ⟨rfl, ?_, nofun⟩) fun s _ ↦ ?_
    · rintro _ ⟨⟩
      exact ⟨hf, rfl, trivial⟩
    · refine (reads_lift (R := fun _ ↦ True) (ends_true_iff.2 fun _ _ ↦ trivial)).acts fun t _ ↦ ?_
      dsimp only
      split
      · exact Guides.acts (q := True) (guides_fail _)
      · exact acts_write (reads_operand _) destination
  | unsupported name => exact Guides.acts (q := True) (guides_fail _)

end Exec

/-! ## Steps -/

theorem Executor.Guided.rebase {e : Executor σ} (he : e.Guided o) (apart : Likeness)
    (object : MemoryObject → Prop) : e.Guided ⟨apart, object, e.nextStateId⟩ where
  exact := he.exact
  supplies := he.supplies
  constants := he.constants
  next_le := Nat.le_refl _
  states id s hs :=
    have h := he.states id s hs
    ⟨h.id_eq, h.lt, h.grounded, fun hle ↦ absurd h.lt (Nat.not_lt.2 hle), h.rests⟩

theorem Focus.Guided.rebase {object : MemoryObject → Prop} {going own : Prop} (hf : focus.Guided o [] going own)
    (hs : focus.state.Grounded object) :
    focus.Guided ⟨focus.state.like, object, focus.executor.nextStateId⟩ [] going own := by
  obtain ⟨hlt, hnone, -⟩ := hf.apart _ List.mem_cons_self
  exact ⟨hf.executor.rebase _ _, List.forall_mem_singleton.2 ⟨hlt, hnone, hs, le_refl _⟩, List.forall_mem_nil _,
    hf.nodup, hf.keys, hf.going, hf.own⟩

def State.Binds (s : State) (x : MemoryObject) : Prop := ∃ q ∈ s.memory.entries, q.2.object = x

namespace State.Grounded

variable {s : State} {K : MemoryObject → Prop}

theorem bound (hs : s.Grounded K) : s.Grounded s.Binds :=
  ⟨hs.valid, hs.satisfiable, hs.closed, hs.names, hs.threads, hs.memory.sorted, hs.memory.keyed, fun q hq ↦
    ⟨(hs.memory.contents q hq).1, q, hq, rfl⟩⟩

theorem eq_of_key_eq (hs : s.Grounded K) {x y : MemoryObject} (hx : s.Binds x) (hy : s.Binds y)
    (hkey : x.key = y.key) : x = y := by
  obtain ⟨⟨k, u⟩, hu, rfl⟩ := hx
  obtain ⟨⟨k', v⟩, hv, rfl⟩ := hy
  obtain rfl : k = k' := (hs.memory.keyed _ hu).trans (hkey.trans (hs.memory.keyed _ hv).symm)
  have hfirst := (AvlMap.get?_eq_some hs.memory.sorted).2 hu
  have hsecond := (AvlMap.get?_eq_some hs.memory.sorted).2 hv
  rw [Option.some.inj (hfirst.symm.trans hsecond)]

theorem exists_suited (hs : s.Grounded K) (i : Instruction) (L : Likeness) (n : StateId) :
    ∃ object, s.Grounded object ∧ Outset.Suits ⟨L, object, n⟩ i := by
  have hkeyed : Outset.Keyed ⟨L, s.Binds, n⟩ := fun _ _ hx hy ↦ hs.eq_of_key_eq hx hy
  cases i with
  | load => exact ⟨s.Binds, hs.bound, hkeyed⟩
  | store => exact ⟨s.Binds, hs.bound, hkeyed⟩
  | _ => exact ⟨fun _ ↦ True, hs.forget, fun _ ↦ trivial⟩

end State.Grounded

namespace Exec

/-- However a step ends, the state that it was made from has ended or its seeds lead to it, and so it is with all
others. -/
theorem ends_step_guided (hf : focus.Guided o [] True True) :
    (step : Exec σ Unit).Ends (fun _ ↦ True) focus fun _ f ↦
      f.state.id = focus.state.id ∧ ∃ o', f.Guided o' [] False True := by
  have hg := hf.spans.grounded
  refine ends_bind_ok rfl (ends_lift_bind (ends_true_iff.2 fun t _ ↦ ?_))
  have hcounted : focus.state.Steady o.object { focus.state with steps := focus.state.steps + 1 } :=
    ⟨⟨rfl, rfl, rfl⟩, hg.valid, hg.satisfiable, hg.closed, hg.names, hg.threads, hg.memory⟩
  have hadvanced : Meets ({ focus.state with steps := focus.state.steps + 1 }.modifyThread fun t ↦ return t.advance)
      (focus.state.Steady o.object) :=
    hcounted.meets (hcounted.grounded.meets_modifyThread fun t ht ↦ Checked.ends_pure ht)
  refine ends_updateState_bind (hadvanced.mono fun s hs ↦ ?_)
  refine ends_bind_ok rfl (ends_bind_ok rfl (ends_lift_bind (ends_true_iff.2 fun i _ ↦ ?_)))
  -- the machine as the instruction finds it
  have hf' : Focus.Guided o [] True True ⟨{ focus.executor with
      location := t.pc, statistics.steps := focus.executor.statistics.steps + 1 }, s⟩ :=
    (hf.withState hs).aligns ⟨rfl, rfl, rfl, rfl, rfl, rfl⟩
  obtain ⟨object, hobject, hsuits⟩ := hs.grounded.exists_suited i s.like focus.executor.nextStateId
  refine ends_tryCatch (acts_instruction i hsuits [] _ (hf'.rebase hobject) (le_refl _)) (fun _ f h ↦ ?_) fun e f h ↦ ?_
  · exact ⟨h.1.trans hs.id_eq, _, (h.2.1 _ rfl).1⟩
  · refine (ends_settle_guided (h.2.2 e rfl)).mono fun _ f' h' ↦ ?_
    exact ⟨h'.1.trans (h.1.trans hs.id_eq), _, h'.2⟩

end Exec

end Symex
