import Symex.Proofs.Integrity.Calls

namespace Symex

open Checked

variable {σ α β : Type} {o : Origin} {fatal : Prop} {sh : Shape} {todo : List Branch} {f g h : Focus σ}

theorem Stand.replace {id : StateId} {s s' : State} (hg : Stand o sh todo f g)
    (hs : g.executor.states[id]? = some s) (hid : s'.id = s.id) (hshape : s'.shape = s.shape)
    (tree : ProcessTree) (seeds : Std.TreeMap StateId (List Seed)) :
    Stand o sh todo f ⟨{ g.executor with tree, seeds, states := g.executor.states.insert id s' }, g.state⟩ := by
  have ht := hg.reaches.succeeds.tidy
  have hmem : ∀ {id' : StateId} {u : State}, (g.executor.states.insert id s')[id']? = some u →
      ∃ v, g.executor.states[id']? = some v ∧ u.id = v.id ∧ u.shape = v.shape := by
    intro id' u hu
    rw [Focus.getElem?_insert_state] at hu
    split at hu
    · rename_i heq
      subst heq
      exact ⟨s, hs, Option.some.inj hu ▸ hid, Option.some.inj hu ▸ hshape⟩
    · exact ⟨u, hu, rfl, rfl⟩
  have hnone : ∀ {id' : StateId}, g.executor.states[id']? = none → (g.executor.states.insert id s')[id']? = none := by
    intro id' hnone
    rw [Focus.getElem?_insert_state, if_neg]
    · exact hnone
    · rintro rfl
      exact nomatch hs.symm.trans hnone
  refine ⟨⟨⟨⟨fun id' u hu ↦ ?_, ht.own_lt, hnone ht.own_none, ht.removed_lt⟩, hg.reaches.succeeds.id_eq,
    hg.reaches.succeeds.config_eq, hg.reaches.succeeds.next_le, hg.reaches.succeeds.removed_sub,
    fun id' hlt hnone' ↦ hnone (hg.reaches.succeeds.old id' hlt hnone')⟩, hg.reaches.program_eq,
    hg.reaches.location_eq, hg.reaches.constants_eq, hg.reaches.bound_le, hg.reaches.base,
    fun id' hlt u hu ↦ ?_, hg.reaches.own, fun id' hge u hu ↦ ?_⟩, hg.nodup, hg.fresh⟩
  · obtain ⟨v, hv, hid', -⟩ := hmem hu
    exact ⟨hid'.trans (ht.named id' v hv).1, (ht.named id' v hv).2⟩
  · obtain ⟨v, hv, -, hshape'⟩ := hmem hu
    obtain ⟨s₀, hs₀, hshape₀⟩ := hg.reaches.old id' hlt v hv
    exact ⟨s₀, hs₀, hshape'.trans hshape₀⟩
  · obtain ⟨v, hv, -, hshape'⟩ := hmem hu
    rw [hshape']
    exact hg.reaches.new id' hge v hv

namespace Exec

theorem found_mergeWith (hsh : sh.Controlled o.program) (hg : Stand o sh [.current] f g) (ids : List StateId)
    (hids : ∀ id ∈ ids, id ∉ g.executor.removed) :
    (mergeWith ids : Exec σ Unit).Found g (Ending o fatal sh (fun _ left ↦ left = []) f) := by
  induction ids with
  | nil => exact ends_pure ⟨[], rfl, hg.drop hsh (List.nil_sublist _)⟩
  | cons id rest ih =>
    rw [List.forall_mem_cons] at hids
    refine ends_bind_ok rfl ?_
    dsimp only
    split
    · exact ih hids.2
    · rename_i other hother
      refine ends_lift_bind ((State.found_merge (hg.kept id other hother hids.1)).ordinary.mono fun r hr ↦ ?_)
      cases r with
      | none => exact ih hids.2
      | some merged =>
        obtain ⟨hid, hshape⟩ := hr merged rfl
        have hend : ∀ (merged : State) (tree : ProcessTree) (seeds : Std.TreeMap StateId (List Seed)),
            merged.id = other.id → merged.shape = other.shape → (do
              set { g with executor := { g.executor with
                tree, seeds, states := g.executor.states.insert id merged } }
              terminate : Exec σ Unit).Found g (Ending o fatal sh (fun _ left ↦ left = []) f) := by
          intro merged tree seeds hid hshape
          have hh := hg.replace hother hid hshape tree seeds
          exact ends_bind_ok rfl (finishes_of_quits quits_terminate (fun _ _ ↦ found_terminate) f _ hh)
        dsimp only
        split
        · refine ends_lift_bind ((ProcessTree.ordinary_merge _ _ _ _).mono fun q _ ↦ ?_)
          exact ends_bind_ok rfl (hend { merged with node := some q.1 } q.2 _ hid hshape)
        · exact ends_bind_ok rfl (hend merged _ _ hid hshape)

theorem found_companions (hsh : sh.Controlled o.program) (hg : Stand o sh [.current] f g) :
    (companions : Exec σ _).Found g fun r h ↦ h = g ∧ ∃ ids, r = .ok ids ∧
      ∀ id ∈ ids, id ∉ g.executor.removed := by
  obtain ⟨rfl, -, -⟩ := hg.own_eq (by simp)
  obtain ⟨t, ht, hid, -⟩ := hsh.current
  refine ends_bind_ok rfl (ends_bind_ok rfl (ends_lift_bind
    ((State.found_thread hsh.nodup ⟨ht, hid⟩).ordinary.mono fun u _ ↦ ends_pure ⟨rfl, _, rfl, fun id hid ↦ ?_⟩)))
  simp only [List.mem_map, List.mem_filter, decide_eq_true_eq] at hid
  obtain ⟨q, ⟨-, -, hlive, -⟩, rfl⟩ := hid
  simpa using hlive

theorem finishes_jump (hsh : sh.Midway o.program o.location) {block : BlockId}
    (hblock : (o.program.instruction? ⟨o.location.function, block, 0⟩).isSome) :
    (jump block : Exec σ Unit).Finishes o fatal sh [.current] := by
  refine finishes_updateState_bind (S := (·.Controlled o.program)) (fun s n hshape hkept ↦ ?_) fun sh' hsh' ↦ ?_
  · subst hshape
    exact (State.found_jumpTo hsh hkept hblock).mono fun s' hs' ↦
      ⟨hs'.1, hs'.2.traceable, hs'.2.kept, hs'.2.controlled⟩
  · have hdone : (pure () : Exec σ Unit).Finishes o fatal sh' [.current] :=
      (works_pure (Q := fun _ _ ↦ True) trivial).finishes hsh'
    refine works_bind works_executor ?_
    rintro e _ ⟨hprogram, -, rfl⟩
    rw [hprogram]
    split
    · obtain ⟨t, ht, hid, -, hplaced⟩ := hsh'.current
      obtain ⟨top, rest, -, htop, hlinked⟩ := hplaced.1
      obtain ⟨function, hfunction, -⟩ := hlinked.sized
      refine works_bind works_state ?_
      rintro s _ ⟨rfl, -, rfl⟩
      refine works_bind (works_lift (State.found_thread hsh'.nodup ⟨ht, hid⟩)) ?_
      rintro u _ ⟨hu, rfl⟩
      have hpc : u.pc = t.pc := congrArg ThreadShape.pc hu
      rw [htop, ← hpc] at hfunction
      refine works_bind (works_lift (Program.found_function (Array.getElem?_eq_some_iff.1 hfunction).1)) ?_
      rintro callee _ ⟨-, rfl⟩
      split
      · exact hdone
      · intro f g hg
        refine ends_bind (found_companions hsh' hg) ?_ ?_
        · rintro ids _ ⟨rfl, _, ⟨⟩, hids⟩
          exact found_mergeWith hsh' hg ids hids
        · rintro _ _ ⟨-, _, ⟨⟩, -⟩
    · exact hdone

theorem found_addTarget {targets : List (BlockId × Expr)} {blocks : List BlockId} {block : BlockId}
    (htargets : ∀ t ∈ targets, t.1 ∈ blocks) (hblock : block ∈ blocks) (condition : Expr) :
    Checked.Found (addTarget targets block condition) fun r ↦ r ≠ [] ∧ ∀ t ∈ r, t.1 ∈ blocks := by
  unfold addTarget
  split
  · rename_i hany
    obtain ⟨t, ht, -⟩ := List.any_eq_true.1 hany
    refine (found_mapM (g := Prod.fst) (k := Prod.fst) fun t ht ↦ ?_).mono fun r hr ↦ ⟨?_, fun u hu ↦ ?_⟩
    · dsimp only
      split
      · exact Checked.ends_bind (Expr.plain_mkBinary .or _ _) fun _ _ ↦ Checked.ends_pure rfl
      · exact Checked.ends_pure rfl
    · rintro rfl
      rw [List.map_nil, eq_comm, List.map_eq_nil_iff] at hr
      rw [hr] at ht
      cases ht
    · have hmem : u.1 ∈ targets.map (·.1) := hr ▸ List.mem_map_of_mem hu
      obtain ⟨v, hv, heq⟩ := List.mem_map.1 hmem
      exact heq ▸ htargets v hv
  · refine Checked.ends_pure ⟨by simp, fun t ht ↦ ?_⟩
    obtain ht | ht := List.mem_append.1 ht
    · exact htargets t ht
    · exact List.mem_singleton.1 ht ▸ hblock

theorem still_forIn {γ : Type} {body : γ → β → Exec σ (ForInStep β)} {l : List γ} {b : β} {J : β → Prop}
    (hb : J b) (hbody : ∀ x ∈ l, ∀ b, J b → (body x b).Still fun r ↦ ∃ b', r = .yield b' ∧ J b') :
    (forIn l b body : Exec σ β).Still J := by
  induction l generalizing b with
  | nil => exact still_pure hb
  | cons x l ih =>
    rw [List.forall_mem_cons] at hbody
    rw [List.forIn_cons]
    refine still_bind (hbody.1 b hb) ?_
    rintro _ ⟨b', rfl, hb'⟩
    exact ih hb' hbody.2

theorem still_switchTargets (value : Expr) (otherwise : BlockId) (cases : List (Nat × BlockId)) :
    (switchTargets value otherwise cases : Exec σ _).Still fun targets ↦ targets ≠ [] ∧
      ∀ t ∈ targets, t.1 ∈ otherwise :: cases.map (·.2) := by
  refine still_bind (still_forIn (J := fun q ↦ ∀ t ∈ q.1, t.1 ∈ otherwise :: cases.map (·.2)) (by simp) ?_) ?_
  · rintro ⟨case, block⟩ hcase ⟨targets, none_⟩ htargets
    have hblock : block ∈ otherwise :: cases.map (·.2) :=
      List.mem_cons_of_mem _ (List.mem_map.2 ⟨(case, block), by simpa using hcase, rfl⟩)
    refine still_bind (still_lift (Expr.plain_constant _ _)) fun number _ ↦
      still_bind (still_lift (Expr.plain_mkEq _ _)) fun same _ ↦
        still_bind (still_lift (Expr.plain_mkBinary .and _ _)) fun none_ _ ↦
          still_bind (still_query fun c ↦ Solver.looks_mayBeTrue c same) fun possible _ ↦ ?_
    split
    · exact still_bind (still_lift (found_addTarget htargets hblock same)) fun targets htargets ↦
        still_pure ⟨_, rfl, htargets.2⟩
    · exact still_pure ⟨_, rfl, htargets⟩
  · rintro ⟨targets, none_⟩ htargets
    refine still_bind (still_query fun c ↦ Solver.looks_mayBeTrue c none_) fun possible _ ↦ ?_
    dsimp only
    split
    · exact still_bind (still_lift (found_addTarget htargets List.mem_cons_self none_)) fun targets htargets ↦
        still_pure htargets
    · rename_i hnone
      refine still_pure ⟨fun hnil ↦ hnone ?_, htargets⟩
      simp [hnil]

theorem mem_blocks {cases : List (Nat × BlockId)} {otherwise : BlockId} (matching : Nat × BlockId → Bool) :
    ((cases.find? matching).map (·.2)).getD otherwise ∈ otherwise :: cases.map (·.2) := by
  cases hfind : cases.find? matching with
  | none => exact List.mem_cons_self
  | some q => exact List.mem_cons_of_mem _ (List.mem_map_of_mem (List.mem_of_find?_eq_some hfind))

theorem finishes_switch (hsh : sh.Midway o.program o.location) {otherwise : BlockId}
    {cases : List (Nat × BlockId)} (hblocks : ∀ block ∈ otherwise :: cases.map (·.2),
      (o.program.instruction? ⟨o.location.function, block, 0⟩).isSome) (value : Expr) :
    (switch value otherwise cases : Exec σ Unit).Finishes o False sh [.current] := by
  refine works_bind (still_toUnique value).works ?_
  rintro value _ ⟨-, rfl⟩
  split
  · rename_i v _
    refine finishes_jump hsh (hblocks _ ?_)
    exact mem_blocks _
  · refine works_bind (still_switchTargets value otherwise cases).works ?_
    rintro targets _ ⟨⟨hne, htargets⟩, rfl⟩
    refine works_bind (works_branch (by simpa using hne)) ?_
    rintro arms left ⟨hlength, hleft⟩
    rw [List.length_map] at hlength
    have hplaces : ((arms.zip targets).filterMap (·.1)).Perm left := by
      rw [filterMap_fst_zip hlength]
      exact hleft.symm
    refine works_bind ((finishes_forIn (fun q hq ↦ ?_) False.elim).perm hplaces) fun _ _ h ↦ works_pure h
    exact finishes_jump hsh (hblocks _ (htargets q.2 (List.of_mem_zip hq).2))

end Exec

end Symex
