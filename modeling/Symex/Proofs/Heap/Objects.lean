import Symex.Executor.Allocation
import Symex.Proofs.Heap.Effects

namespace Symex

variable {σ : Type} {I : Inputs} {F : Fault → Prop} {A B : Assignment → Prop} {Q : State → Prop} {p condition : Expr}
  {object : MemoryObject} {b : Branch} {s : State} {done found : List (Branch × MemoryObject)} {rest : Option Branch}

/-- The places where the pointer is the start of an object, and the one where this is open. -/
def labels (found : List (Branch × MemoryObject)) (rest : Option Branch) : List (Branch × Option MemoryObject) :=
  found.map (fun q ↦ (q.1, some q.2)) ++ rest.toList.map (·, none)

theorem mem_labels_none : (b, none) ∈ labels found rest ↔ rest = some b := by
  simp [labels, eq_comm]

theorem mem_labels_some : (b, some object) ∈ labels found rest ↔ (b, object) ∈ found := by
  simp [labels]

theorem places_labels : (labels found rest).map (·.1) = found.map (·.1) ++ rest.toList := by
  simp [labels, Function.comp_def]

/-- The state has the data of that of `g₀`, and the pointer is the start of the object at its place, if there is
one. -/
def State.Labelled (I : Inputs) (A : Assignment → Prop) (g₀ : Focus σ) (p : Expr)
    (l : List (Branch × Option MemoryObject)) (b : Branch) (s : State) : Prop :=
  g₀.state.SameData s ∧ ∃ o, (b, o) ∈ l ∧ s.Confined I fun a ↦ A a ∧ ∀ x ∈ o, a.val p = x.address

/-- The state of `g` was divided by some objects that the pointer may be the start of. -/
structure Focus.Partitioned (I : Inputs) (A : Assignment → Prop) (g₀ : Focus σ) (p : Expr) (g : Focus σ)
    (l : List (Branch × Option MemoryObject)) (f : Focus σ) : Prop where
  becomes : g.Becomes I (State.Labelled I A g₀ p l) f
  nodup : (l.map (·.1)).Nodup
  places : ∀ q ∈ l.map (·.1), g.Result f q

namespace Exec

variable {g g₀ f : Focus σ}

theorem ends_forkOn_partitioned (hg : g₀.Share I B g) (h : Focus.Partitioned I A g₀ p g (labels done (some b)) f)
    (hmeans : condition.Means fun a ↦ a.val p = object.address) :
    (forkOn b condition true).Ends F f fun r f' ↦ ∃ holds fails, r = .ok (holds, fails) ∧
      Focus.Partitioned I A g₀ p g (labels (done ++ holds.toList.map (·, object)) fails) f' := by
  have hb : g.Result f b := h.places b (by simp [places_labels])
  have hnodup := h.nodup
  rw [places_labels, Option.toList_some] at hnodup
  have hother : ∀ {b' o}, b' ≠ b → (b', o) ∈ labels done (some b) → ∃ x, o = some x ∧ (b', x) ∈ done := by
    intro b' o hne hmem
    cases o with
    | none => exact (hne (Option.some.inj (mem_labels_none.1 hmem)).symm).elim
    | some x => exact ⟨x, rfl, mem_labels_some.1 hmem⟩
  refine ends_bind (ends_onBranch_becomes (V := SidesOf f.executor.nextStateId)
    (R := fun sides inner s ↦ g₀.state.SameData s ∧ s.Confined I fun a ↦ A a ∧
      (sides.1 = some inner ∧ a.val condition ≠ 0 ∨ sides.2 = some inner ∧ a.val condition = 0))
    h.becomes hb fun s hs hlive ↦ ?_) ?_ ?_
  · obtain ⟨-, hdata, o, -, hconfined⟩ := h.becomes.parts b s hb hs hlive
    have hshare := hg.view h.becomes hb hs hlive hdata hconfined
    exact (turns_fork hshare.toWorkable hmeans.truth).imp fun sides inner s' _ ⟨hdata', hconfined'⟩ ↦
      ⟨hdata.trans hdata', fun a ha ↦ ⟨(hconfined a (hconfined' a ha).1).1, (hconfined' a ha).2⟩⟩
  · rintro o f' ⟨_, ⟨⟩, hV, hle, hf'⟩
    have hold : ∀ {b'}, b' ∈ done.map (·.1) ++ [b] → g.Result f' b' := fun hmem ↦
      (h.places _ (by rwa [places_labels])).mono hle
    cases o with
    | none =>
      refine ends_pure ⟨none, none, rfl, hf'.imp ?_, ?_, fun b' hb' ↦ hold ?_⟩
      · rintro b' s' - - - - (⟨hne, -, hdata, o, hmem, hconfined⟩ | ⟨_, ⟨⟩, -⟩)
        obtain ⟨x, rfl, hdone⟩ := hother hne hmem
        exact ⟨hdata, some x, mem_labels_some.2 (by simpa using hdone), hconfined⟩
      · simpa [places_labels] using hnodup.sublist (List.sublist_append_left _ _)
      · simp only [places_labels, Option.toList_none, List.map_nil, List.append_nil] at hb'
        exact List.mem_append_left _ hb'
    | some sides =>
      have hsides := hV sides rfl
      obtain ⟨holds, fails⟩ := sides
      refine ends_pure ⟨_, _, rfl, hf'.imp ?_, ?_, ?_⟩
      · rintro b' s' - - - hable (⟨hne, -, hdata, o, hmem, hconfined⟩ | ⟨_, ⟨⟩, inner, rfl, -, hdata, hconfined⟩)
        · obtain ⟨x, rfl, hdone⟩ := hother hne hmem
          exact ⟨hdata, some x, mem_labels_some.2 (List.mem_append_left _ hdone), hconfined⟩
        · -- a live state has a solution, which belongs to one of the sides
          obtain ⟨a₀, ha₀⟩ := hable.satisfiable
          obtain ⟨-, ⟨hside, -⟩ | ⟨hside, -⟩⟩ := hconfined a₀ ha₀
          · obtain rfl : holds = some inner := hside
            refine ⟨hdata, some object, mem_labels_some.2 (by simp), fun a ha ↦ ⟨(hconfined a ha).1, ?_⟩⟩
            rintro _ ⟨⟩
            obtain ⟨-, ⟨-, hne⟩ | ⟨hside', -⟩⟩ := hconfined a ha
            · exact (hmeans.val_iff ha.free).1 hne
            · exact (hsides.apart rfl hside').elim
          · obtain rfl : fails = some inner := hside
            exact ⟨hdata, none, mem_labels_none.2 rfl, fun a ha ↦ ⟨(hconfined a ha).1, nofun⟩⟩
      · -- a place that was given out just now is none of those before
        cases hsides with
        | holds => simpa [places_labels, Branch.relativeTo] using hnodup
        | fails => simpa [places_labels, Branch.relativeTo] using hnodup
        | both =>
          have hnew : ∀ b' ∈ done.map (·.1) ++ [b], b' ≠ .forked f.executor.nextStateId := by
            rintro _ hmem rfl
            have hgiven : g.Result f (.forked f.executor.nextStateId) := h.places _ (by rwa [places_labels])
            exact Nat.lt_irrefl _ hgiven.2
          have hnodup' : ((done.map Prod.fst ++ [b]) ++ [Branch.forked f.executor.nextStateId]).Nodup :=
            List.nodup_append.2 ⟨hnodup, by simp, fun b' hb' _ hmem ↦ List.mem_singleton.1 hmem ▸ hnew b' hb'⟩
          simpa [places_labels, Branch.relativeTo] using hnodup'
      · intro b' hb'
        cases hsides with
        | holds => exact hold (by simpa [places_labels, Branch.relativeTo] using hb')
        | fails => exact hold (by simpa [places_labels, Branch.relativeTo] using hb')
        | both hlt =>
          have hb' : b' ∈ (done.map (·.1) ++ [b]) ++ [.forked f.executor.nextStateId] := by
            simpa [places_labels, Branch.relativeTo] using hb'
          obtain hb' | hb' := List.mem_append.1 hb'
          · exact hold hb'
          · obtain rfl := List.mem_singleton.1 hb'
            exact ⟨h.becomes.continues.next_le, hlt⟩
  · rintro _ _ ⟨_, ⟨⟩, -⟩

theorem ends_eachObject_partitioned (hg : g₀.Share I B g) (hp : p.IsAddress) {l : List MemoryObject}
    (hl : ∀ o ∈ l, o.address < wordLimit) (h : Focus.Partitioned I A g₀ p g (labels done rest) f) :
    (eachObject (fun o ↦ Expr.mkEq p o.base) (fun b o ↦ return some (b, o)) l rest :
      Exec σ (List (Branch × MemoryObject) × Option Branch)).Ends F f fun r f' ↦ ∃ found rest',
        r = .ok (found, rest') ∧ (∀ q ∈ found, q.2 ∈ l) ∧
          Focus.Partitioned I A g₀ p g (labels (done ++ found) rest') f' := by
  induction l generalizing done rest f with
  | nil => exact ends_pure ⟨[], rest, rfl, by simp, by rwa [List.append_nil]⟩
  | cons object l ih =>
    rw [List.forall_mem_cons] at hl
    cases rest with
    | none => exact ends_pure ⟨[], none, rfl, by simp, by rwa [List.append_nil]⟩
    | some b =>
      have hbase : object.base.IsAddress := Expr.isAddress_pointer _
      obtain ⟨condition, hcondition, hmeans⟩ := Expr.exists_mkEq hp.wellFormed hbase.wellFormed
        (hp.width_eq.trans hbase.width_eq.symm)
      have hmeans : condition.Means fun a ↦ a.val p = object.address := hmeans.congr fun _ ↦ by
        rw [MemoryObject.base, Assignment.val_pointer hl.1]
      rw [eachObject]
      refine ends_seq (ends_lift (Checked.ends_of_eq hcondition ?_))
      refine ends_bind (ends_forkOn_partitioned hg h hmeans) ?_ ?_
      · rintro _ f' ⟨holds, fails, ⟨⟩, h'⟩
        have hrest : ∀ here : Option (Branch × MemoryObject), holds.map (·, object) = here → (do
            let r ← eachObject (fun o ↦ Expr.mkEq p o.base) (fun b o ↦ return some (b, o)) l fails
            return (here.toList ++ r.1, r.2) : Exec σ (List (Branch × MemoryObject) × Option Branch)).Ends F f'
            fun r f' ↦ ∃ found rest', r = .ok (found, rest') ∧ (∀ q ∈ found, q.2 ∈ object :: l) ∧
              Focus.Partitioned I A g₀ p g (labels (done ++ found) rest') f' := by
          rintro _ rfl
          refine ends_bind (ih hl.2 h') ?_ ?_
          · rintro _ f'' ⟨found, rest', ⟨⟩, hfound, h''⟩
            refine ends_pure ⟨_, _, rfl, fun q hq ↦ ?_, ?_⟩
            · obtain hq | hq := List.mem_append.1 hq
              · obtain ⟨b', -, rfl⟩ : ∃ b', holds = some b' ∧ (b', object) = q := by simpa using hq
                exact List.mem_cons_self
              · exact List.mem_cons_of_mem _ (hfound q hq)
            · have hlist : (holds.map (·, object)).toList = holds.toList.map (·, object) := by cases holds <;> rfl
              rwa [hlist, ← List.append_assoc]
          · rintro _ _ ⟨_, _, ⟨⟩, -⟩
        cases holds with
        | none => exact ends_bind_ok rfl (hrest none rfl)
        | some inside => exact ends_bind_ok rfl (hrest (some (inside, object)) rfl)
      · rintro _ _ ⟨_, _, ⟨⟩, -⟩

/-- The objects that were found are bound, and each is at a place of its own. -/
structure Resolves (m : AddressSpace) (g : Focus σ) (found : List (Branch × MemoryObject)) (next : StateId) : Prop where
  nodup : (found.map (·.1)).Nodup
  bound : ∀ q ∈ found, ∃ x ∈ m.toList, x.object = q.2
  places : ∀ q ∈ found, ∀ f : Focus σ, f.executor.nextStateId = next → g.Result f q.1

variable (hm : g₀.state.memory.Addressable) (hp : p.IsAddress)
include hm hp

theorem ends_resolve_bound {P : Except PathError Resolution → Focus σ → Prop} (hg : g₀.Share I A g)
    (h : ∀ r solver, g.executor.solver.Same solver → (∀ x ∈ r.objects, x ∈ g₀.state.memory.toList) →
      P (.ok r) (g.withSolver solver)) : (resolve p).Ends F g P := by
  have hm' : g.state.memory.Addressable := hm.of_objects_eq hg.data.objects_eq
  have hfinds : Finds I False (g.state.memory.resolve (σ := σ) g.state.constraints p
      g.executor.config.maxResolutions g.executor.solver.timeout)
      (AddressSpace.Resolved I g.state.memory g.state.constraints p True) :=
    finds_of_findsBy fun _ ↦ AddressSpace.findsBy_resolve hg.able.valid hg.able.satisfiable hm' hp False.elim
      (fun _ ↦ trivial) fun _ _ _ ↦ trivial
  obtain ⟨r, solver, hrun, hsame, hr⟩ := hfinds g.executor.solver hg.unrestrained.exact
  refine ends_bind_ok rfl (ends_seq (ends_lift (Checked.ends_of_eq hrun (ends_bind_ok rfl (ends_pure ?_)))))
  refine h r solver hsame fun x hx ↦ ?_
  obtain ⟨q, hq, rfl, -⟩ := hr.hit x hx
  have hlist : g.state.memory.toList = g₀.state.memory.toList := congrArg AvlMap.values hg.data.objects_eq
  exact hlist ▸ AddressSpace.mem_toList.2 ⟨q, hq, rfl⟩

theorem turns_resolveExact (hg : g₀.Share I A g) (operation : String) :
    (resolveExact p operation).Turns I F g (Resolves g₀.state.memory g) fun found ↦
      State.Labelled I A g₀ p (labels found none) := by
  refine ends_seq (ends_resolve_bound hm hp hg fun resolution solver hsame hbound ↦ ?_)
  have hg' : g₀.Share I A (g.withSolver solver) := hg.asked hsame hg.confined
  have hstart : Focus.Partitioned I A g₀ p (g.withSolver solver) (labels [] (some .current)) (g.withSolver solver) := by
    refine ⟨Focus.becomes_refl hg'.leaf fun _ ↦ ⟨hg'.able, hg'.data, none, mem_labels_none.2 rfl, fun a ha ↦
      ⟨hg'.confined a ha, nofun⟩⟩, by simp [labels], ?_⟩
    rintro _ hb
    obtain rfl := List.mem_singleton.1 (show _ ∈ [Branch.current] by simpa [labels] using hb)
    trivial
  refine ends_bind (ends_eachObject_partitioned hg' hp (fun o ho ↦ ?_) hstart) ?_ ?_
  · obtain ⟨x, hx, rfl⟩ := List.mem_map.1 ho
    obtain ⟨q, hq, rfl⟩ := AddressSpace.mem_toList.1 (hbound x hx)
    exact hm.address_eq hq ▸ hm.address_lt hq
  · rintro _ f ⟨found, rest, ⟨⟩, hfound, hpartitioned⟩
    rw [List.nil_append] at hpartitioned
    refine ends_bind (effectsAt_onSide (Q := fun _ ↦ False) (A := A) (effects_addressInfo hp.wellFormed _) rest hg'
      hpartitioned.becomes fun b hb ↦ ⟨hpartitioned.places b (by simp [places_labels, hb]), ?_⟩) ?_
      (by rintro _ _ ⟨⟨⟩, -⟩)
    · rintro s ⟨hdata, o, -, hconfined⟩
      exact ⟨hdata, fun a ha ↦ (hconfined a ha).1⟩
    · rintro _ f' ⟨-, hle, hf'⟩
      have hnodup := hpartitioned.nodup
      rw [places_labels] at hnodup
      refine ends_pure ⟨⟨hnodup.sublist (List.sublist_append_left ..), fun q hq ↦ ?_, fun q hq f'' hnext ↦ ?_⟩,
        (hf'.imp ?_).asked hsame⟩
      · obtain ⟨x, hx, heq⟩ := List.mem_map.1 (hfound q hq)
        exact ⟨x, hbound x hx, heq⟩
      · have hplace : g.Result f q.1 := hpartitioned.places q.1 (by
          rw [places_labels]
          exact List.mem_append_left _ (List.mem_map_of_mem hq))
        exact hplace.mono (hnext ▸ hle)
      · rintro b s - - - - (⟨hbeside, hdata, o, hmem, hconfined⟩ | ⟨-, ⟨⟩⟩)
        cases o with
        | none => exact (hbeside.1 (mem_labels_none.1 hmem)).elim
        | some object => exact ⟨hdata, _, mem_labels_some.2 (mem_labels_some.1 hmem), hconfined⟩
  · rintro _ _ ⟨_, _, ⟨⟩, -⟩

omit hm hp in
theorem ends_forIn_objects {work : MemoryObject → Exec σ Unit} {side : Option Branch} {P : Branch → State → Prop}
    {f₀ : Focus σ} (place : Branch → Branch) (hg : g₀.Share I B g) {l : List (Branch × MemoryObject)}
    (hwork : ∀ q ∈ l, Effects I F g₀ (fun a ↦ A a ∧ a.val p = q.2.address) Q (work q.2))
    (hle : f₀.executor.nextStateId ≤ f.executor.nextStateId) (hnodup : (l.map fun q ↦ place q.1).Nodup)
    (hplaces : ∀ q ∈ l, g.Result f (place q.1) ∧ ¬g.Beside f₀ side (place q.1))
    (hf : g.Becomes I (fun b s ↦ (g.Beside f₀ side b ∧ P b s) ∨
      (¬g.Beside f₀ side b ∧ (∀ q ∈ l, place q.1 ≠ b) ∧ Q s) ∨ ∃ q ∈ l, place q.1 = b ∧ g₀.state.SameData s ∧
        s.Confined I fun a ↦ A a ∧ a.val p = q.2.address) f) :
    (forIn l PUnit.unit fun q _ ↦ do
      onSide (some (place q.1)) (work q.2)
      pure (ForInStep.yield PUnit.unit) : Exec σ PUnit).Ends F f fun r f' ↦ r = .ok () ∧
        f₀.executor.nextStateId ≤ f'.executor.nextStateId ∧
        g.Becomes I (fun b s ↦ (g.Beside f₀ side b ∧ P b s) ∨ (¬g.Beside f₀ side b ∧ Q s)) f' := by
  induction l generalizing f with
  | nil =>
    refine ends_pure ⟨rfl, hle, hf.imp ?_⟩
    rintro b s - - - - (h | ⟨hbeside, -, h⟩ | ⟨q, hq, -⟩)
    · exact .inl h
    · exact .inr ⟨hbeside, h⟩
    · cases hq
  | cons q l ih =>
    rw [List.forall_mem_cons] at hwork hplaces
    rw [List.map_cons, List.nodup_cons] at hnodup
    have hapart : ∀ r ∈ l, place r.1 ≠ place q.1 := fun r hr heq ↦
      hnodup.1 (heq ▸ List.mem_map_of_mem (f := fun q : Branch × MemoryObject ↦ place q.1) hr)
    have hside : ∀ s, ((g.Beside f₀ side (place q.1) ∧ P (place q.1) s) ∨
        (¬g.Beside f₀ side (place q.1) ∧ (∀ r ∈ q :: l, place r.1 ≠ place q.1) ∧ Q s) ∨
          ∃ r ∈ q :: l, place r.1 = place q.1 ∧ g₀.state.SameData s ∧
            s.Confined I fun a ↦ A a ∧ a.val p = r.2.address) →
        g₀.state.SameData s ∧ s.Confined I fun a ↦ A a ∧ a.val p = q.2.address := by
      rintro s (⟨hbeside, -⟩ | ⟨-, hne, -⟩ | ⟨r, hr, heq, h⟩)
      · exact (hplaces.1.2 hbeside).elim
      · exact (hne q List.mem_cons_self rfl).elim
      · obtain rfl | hr := List.mem_cons.1 hr
        · exact h
        · exact (hapart r hr heq).elim
    rw [List.forIn_cons]
    refine ends_seq (ends_bind (effectsAt_onSide hwork.1 (some (place q.1)) hg hf ?_) ?_ (by rintro _ _ ⟨⟨⟩, -⟩))
    · rintro _ ⟨⟩
      exact ⟨hplaces.1.1, hside⟩
    · rintro _ f₁ ⟨-, hle₁, hf₁⟩
      refine ends_pure (ih hwork.2 (Nat.le_trans hle hle₁) hnodup.2
        (fun r hr ↦ ⟨(hplaces.2 r hr).1.mono hle₁, (hplaces.2 r hr).2⟩) (hf₁.imp ?_))
      rintro b s - - - - (⟨⟨hne, hb⟩, h | ⟨hbeside, hother, hQ⟩ | ⟨r, hr, heq, h⟩⟩ | ⟨hbeside, hQ⟩)
      · exact .inl h
      · exact .inr (.inl ⟨hbeside, fun r hr ↦ hother r (List.mem_cons_of_mem _ hr), hQ⟩)
      · obtain rfl | hr := List.mem_cons.1 hr
        · exact (hne (by rw [heq])).elim
        · exact .inr (.inr ⟨r, hr, heq, h⟩)
      · -- what the work made is at the place of the object, or at a new one
        refine .inr (.inl ⟨fun h ↦ hbeside ⟨?_, h.2.mono hle⟩, ?_, hQ⟩)
        · rintro ⟨⟩
          exact hplaces.1.2 h
        · rintro r hr rfl
          exact hbeside ⟨fun heq ↦ hapart r hr (Option.some.inj heq).symm, (hplaces.2 r hr).1⟩

theorem effectsAt_onObjects {work : MemoryObject → Exec σ Unit} (operation : String)
    (hwork : ∀ x ∈ g₀.state.memory.toList,
      Effects I F g₀ (fun a ↦ A a ∧ a.val p = x.object.address) Q (work x.object)) :
    EffectsAt I F g₀ A Q (onObjects · p operation work) := by
  intro B g f P side hg hf hside
  cases side with
  | none => exact ends_pure ⟨rfl, Nat.le_refl _, hf.imp fun b s hb _ _ _ hP ↦ .inl ⟨⟨nofun, hb⟩, hP⟩⟩
  | some side =>
    obtain ⟨hb, hP⟩ := hside side rfl
    have hresolve : ∀ s, f.stateAt? side = some s → s.id ∉ f.executor.removed →
        (resolveExact p operation).Turns I F (f.view side s) (Resolves g₀.state.memory f) fun found ↦
          State.Labelled I A g₀ p (labels found none) := by
      intro s hs hlive
      obtain ⟨hdata, hconfined⟩ := hP s (hf.parts side s hb hs hlive).2
      refine Ends.mono (turns_resolveExact hm hp (hg.view hf hb hs hlive hdata hconfined) operation) fun r f' h ↦ ?_
      cases r with
      | ok found => exact ⟨⟨h.1.nodup, h.1.bound, h.1.places⟩, h.2⟩
      | error e => exact h
    refine ends_bind (ends_onBranch_becomes hf hb hresolve) ?_ ?_
    · rintro o f' ⟨_, ⟨⟩, hV, hle, hf'⟩
      have hfound : ((o.getD []).map fun q ↦ q.1.relativeTo side).Nodup ∧
          (∀ q ∈ o.getD [], ∃ x ∈ g₀.state.memory.toList, x.object = q.2) ∧ ∀ q ∈ o.getD [], f.Result f' q.1 := by
        cases o with
        | none => exact ⟨List.nodup_nil, by simp, by simp⟩
        | some found =>
          obtain ⟨hnodup, hbound, hplaces⟩ := hV found rfl
          have hplaces : ∀ q ∈ found, f.Result f' q.1 := fun q hq ↦ hplaces q hq f' rfl
          exact ⟨List.pairwise_map.2 ((List.pairwise_map.1 hnodup).imp_of_mem fun hq hr hne heq ↦
            hne (Focus.relativeTo_inj hb (hplaces _ hq) (hplaces _ hr) heq)), hbound, hplaces⟩
      obtain ⟨hnodup, hbound, hplaces⟩ := hfound
      refine ends_bind (ends_forIn_objects (A := A) (Q := Q) (P := P) (p := p) (·.relativeTo side) hg
        (fun q hq ↦ ?_) hle hnodup (fun q hq ↦ ⟨Focus.result_relativeTo hf.continues.next_le hle hb (hplaces q hq),
          Focus.not_beside_relativeTo (hplaces q hq)⟩) (hf'.imp ?_)) ?_ ?_
      · obtain ⟨x, hx, heq⟩ := hbound q hq
        exact heq ▸ hwork x hx
      · rintro b s - - - - (⟨hne, hb, hP⟩ | ⟨found, hmem, inner, rfl, -, hdata, object, hlabel, hconfined⟩)
        · exact .inl ⟨⟨fun heq ↦ hne (Option.some.inj heq).symm, hb⟩, hP⟩
        · obtain rfl : o = some found := hmem
          cases object with
          | none => exact nomatch mem_labels_none.1 hlabel
          | some object =>
            exact .inr (.inr ⟨(inner, object), mem_labels_some.1 hlabel, rfl, hdata, fun a ha ↦
              ⟨(hconfined a ha).1, (hconfined a ha).2 object rfl⟩⟩)
      · rintro _ f'' ⟨⟨⟩, h⟩
        exact ends_pure ⟨rfl, h⟩
      · rintro _ _ ⟨⟨⟩, -⟩
    · rintro _ _ ⟨_, ⟨⟩, -⟩

end Exec

end Symex
