import Symex.Proofs.Descent.States
import Symex.Proofs.Descent.Trees
import Symex.Proofs.Integrity.Works

namespace Symex

open Checked

variable {σ α β : Type} {f g g' : Focus σ} {held held' : List State} {s s' : State}

/-- The state is at a leaf, and the leaf holds it. -/
def State.Sits (t : ProcessTree) (s : State) : Prop := ∃ n, s.node = some n ∧ (n, s.id) ∈ t.leaves

/-- The state has ended, and a merge took its leaf. -/
def State.Absorbed (h : ProcessTree.History) (removed : List StateId) (s : State) : Prop :=
  s.id ∈ removed ∧ ∃ n, s.node = some n ∧ n ∈ h.absorbed

theorem State.Beside.sits {t : ProcessTree} (h : s.Beside s') (hs : s.Sits t) : s'.Sits t := by
  obtain ⟨n, hn, hleaf⟩ := hs
  exact ⟨n, h.node_eq.trans hn, h.id_eq.symm ▸ hleaf⟩

theorem State.Beside.absorbed {h : ProcessTree.History} {removed : List StateId} (hs : s.Beside s')
    (ha : s.Absorbed h removed) : s'.Absorbed h removed := by
  obtain ⟨hid, n, hn, hmem⟩ := ha
  exact ⟨hs.id_eq.symm ▸ hid, n, hs.node_eq.trans hn, hmem⟩

theorem ProcessTree.eq_of_mem_leaves {t : ProcessTree} {n : NodeId} {a b : StateId} (ha : (n, a) ∈ t.leaves)
    (hb : (n, b) ∈ t.leaves) : a = b := by
  obtain ⟨p, hp, hpa⟩ := mem_leaves.1 ha
  obtain ⟨q, hq, hqb⟩ := mem_leaves.1 hb
  rw [Option.some.inj (hp.symm.trans hq), hqb] at hpa
  exact (Option.some.inj hpa).symm

namespace Focus

/-- The state is worked on, laid aside, or one of the live states. -/
def Knows (held : List State) (f : Focus σ) (s : State) : Prop :=
  s = f.state ∨ s ∈ held ∨ ∃ id : StateId, f.executor.states[id]? = some s

/-- The tree was made by operations that were allowed, and every state is at a leaf, unless it has ended. States
have different names, and those of `held` are laid aside. -/
structure Seated (held : List State) (f : Focus σ) : Prop where
  grown : ∃ h, ProcessTree.Grown h f.executor.tree ∧
    ∀ s, f.Knows held s → s.Sits f.executor.tree ∨ s.Absorbed h f.executor.removed
  apart : ∀ s, f.Knows held s → s.Apart
  id_lt : ∀ s, f.Knows held s → s.id < f.executor.nextStateId
  named : ∀ (id : StateId) (s : State), f.executor.states[id]? = some s → s.id = id
  nodup : ((f.state :: held).map (·.id)).Nodup
  outside : ∀ s ∈ f.state :: held, f.executor.states[s.id]? = none

def Firm (f : Focus σ) : Prop := f.state.Sits f.executor.tree

namespace Seated

theorem imp (hf : f.Seated held) (htree : g.executor.tree = f.executor.tree)
    (hremoved : ∀ id ∈ f.executor.removed, id ∈ g.executor.removed)
    (hnext : f.executor.nextStateId = g.executor.nextStateId)
    (hhas : ∀ s', g.Knows held' s' → ∃ s, f.Knows held s ∧ s.Beside s')
    (hnamed : ∀ (id : StateId) (s : State), g.executor.states[id]? = some s → s.id = id)
    (hnodup : ((g.state :: held').map (·.id)).Nodup)
    (houtside : ∀ s ∈ g.state :: held', g.executor.states[s.id]? = none) : g.Seated held' := by
  obtain ⟨h, hgrown, hseats⟩ := hf.grown
  refine ⟨⟨h, htree ▸ hgrown, fun s' hs' ↦ ?_⟩, fun s' hs' ↦ ?_, fun s' hs' ↦ ?_, hnamed, hnodup, houtside⟩
  · obtain ⟨s, hs, hbeside⟩ := hhas s' hs'
    rw [htree]
    rcases hseats s hs with hsits | ⟨hid, habsorbed⟩
    · exact .inl (hbeside.sits hsits)
    · exact .inr (hbeside.absorbed ⟨hremoved _ hid, habsorbed⟩)
  · obtain ⟨s, hs, hbeside⟩ := hhas s' hs'
    exact hbeside.apart (hf.apart s hs)
  · obtain ⟨s, hs, hbeside⟩ := hhas s' hs'
    rw [hbeside.id_eq, ← hnext]
    exact hf.id_lt s hs

theorem withExecutor {e : Executor σ} (hf : f.Seated held) (htree : e.tree = f.executor.tree)
    (hremoved : ∀ id ∈ f.executor.removed, id ∈ e.removed) (hnext : e.nextStateId = f.executor.nextStateId)
    (hstates : e.states = f.executor.states) : Seated held ⟨e, f.state⟩ :=
  hf.imp htree hremoved hnext.symm (fun s hs ↦ ⟨s, by simpa only [Knows, hstates] using hs, .refl s⟩)
    (by simpa only [hstates] using hf.named) hf.nodup (by simpa only [hstates] using hf.outside)

theorem withState (hf : f.Seated held) (hs : f.state.Beside s) : Seated held { f with state := s } := by
  refine hf.imp rfl (fun _ h ↦ h) rfl (fun s' hs' ↦ ?_) hf.named ?_ fun s' hs' ↦ ?_
  · rcases hs' with rfl | hs'
    · exact ⟨f.state, .inl rfl, hs⟩
    · exact ⟨s', .inr hs', .refl s'⟩
  · rw [List.map_cons, hs.id_eq]
    exact hf.nodup
  · rcases List.mem_cons.1 hs' with rfl | hs'
    · rw [hs.id_eq]
      exact hf.outside _ List.mem_cons_self
    · exact hf.outside s' (List.mem_cons_of_mem _ hs')

theorem perm (hf : f.Seated held) (hperm : held.Perm held') : f.Seated held' := by
  refine hf.imp rfl (fun _ h ↦ h) rfl (fun s hs ↦ ⟨s, ?_, .refl s⟩) hf.named ?_ fun s hs ↦ ?_
  · exact hs.imp_right fun hs ↦ hs.imp_left hperm.mem_iff.2
  · exact ((hperm.cons _).map _).nodup_iff.1 hf.nodup
  · exact hf.outside s ((hperm.cons _).mem_iff.2 hs)

theorem forget (hf : f.Seated (s :: held)) : f.Seated held := by
  refine hf.imp rfl (fun _ h ↦ h) rfl (fun s' hs' ↦ ⟨s', ?_, .refl s'⟩) hf.named ?_ fun s' hs' ↦ ?_
  · exact hs'.imp_right fun hs' ↦ hs'.imp_left (List.mem_cons_of_mem s)
  · exact hf.nodup.sublist (((List.sublist_cons_self s held).cons_cons _).map _)
  · exact hf.outside s' (((List.sublist_cons_self s held).cons_cons _).mem hs')

theorem swap (hf : f.Seated (s :: held)) : Seated (f.state :: held) { f with state := s } := by
  refine hf.imp rfl (fun _ h ↦ h) rfl (fun s' hs' ↦ ⟨s', ?_, .refl s'⟩) hf.named ?_ fun s' hs' ↦ ?_
  · rcases hs' with rfl | hs' | hs'
    · exact .inr (.inl List.mem_cons_self)
    · rcases List.mem_cons.1 hs' with rfl | hs'
      · exact .inl rfl
      · exact .inr (.inl (List.mem_cons_of_mem s hs'))
    · exact .inr (.inr hs')
  · exact ((List.Perm.swap f.state s held).symm.map (·.id)).nodup_iff.1 hf.nodup
  · exact hf.outside s' ((List.Perm.swap f.state s held).mem_iff.1 hs')

theorem enter {id : StateId} (hf : f.Seated held) (hs : f.executor.states[id]? = some s) :
    Seated (f.state :: held) ⟨{ f.executor with states := f.executor.states.erase id }, s⟩ := by
  have herase : ∀ (id' : StateId) (s' : State), (f.executor.states.erase id)[id']? = some s' →
      id' ≠ id ∧ f.executor.states[id']? = some s' := by
    intro id' s' hs'
    rw [Std.TreeMap.getElem?_erase] at hs'
    split at hs'
    · cases hs'
    · rename_i hne
      exact ⟨fun heq ↦ hne (by simp [heq]), hs'⟩
  have hsid := hf.named id s hs
  refine hf.imp rfl (fun _ h ↦ h) rfl (fun s' hs' ↦ ⟨s', ?_, .refl s'⟩) (fun id' s' hs' ↦ ?_) ?_ fun s' hs' ↦ ?_
  · rcases hs' with rfl | hs' | ⟨id', hs'⟩
    · exact .inr (.inr ⟨id, hs⟩)
    · rcases List.mem_cons.1 hs' with rfl | hs'
      · exact .inl rfl
      · exact .inr (.inl hs')
    · exact .inr (.inr ⟨id', (herase id' s' hs').2⟩)
  · exact hf.named id' s' (herase id' s' hs').2
  · refine List.nodup_cons.2 ⟨fun hmem ↦ ?_, hf.nodup⟩
    obtain ⟨s', hs', hid⟩ := List.mem_map.1 hmem
    have hnone := hf.outside s' hs'
    rw [show s'.id = id from hid.trans hsid, hs] at hnone
    cases hnone
  · rw [Std.TreeMap.getElem?_erase]
    split
    · rfl
    · rename_i hne
      rcases List.mem_cons.1 hs' with rfl | hs'
      · exact absurd (by simp [hsid]) hne
      · exact hf.outside s' hs'

theorem insert (hf : f.Seated (s :: held)) : Seated held
    { f with executor := { f.executor with states := f.executor.states.insert s.id s } } := by
  have hinsert : ∀ (id : StateId) (s' : State), (f.executor.states.insert s.id s)[id]? = some s' →
      (id = s.id ∧ s' = s) ∨ f.executor.states[id]? = some s' := by
    intro id s' hs'
    rw [Std.TreeMap.getElem?_insert] at hs'
    split at hs'
    · rename_i heq
      exact .inl ⟨by simpa using Eq.symm (by simpa using heq), (Option.some.inj hs').symm⟩
    · exact .inr hs'
  have hnodup := hf.nodup
  rw [List.map_cons, List.map_cons, List.nodup_cons, List.nodup_cons, List.mem_cons] at hnodup
  obtain ⟨hout, hsout, hheld⟩ := hnodup
  refine hf.imp rfl (fun _ h ↦ h) rfl (fun s' hs' ↦ ⟨s', ?_, .refl s'⟩) (fun id s' hs' ↦ ?_) ?_ fun s' hs' ↦ ?_
  · rcases hs' with rfl | hs' | ⟨id, hs'⟩
    · exact .inl rfl
    · exact .inr (.inl (List.mem_cons_of_mem s hs'))
    · rcases hinsert id s' hs' with ⟨-, rfl⟩ | hs'
      · exact .inr (.inl List.mem_cons_self)
      · exact .inr (.inr ⟨id, hs'⟩)
  · rcases hinsert id s' hs' with ⟨rfl, rfl⟩ | hs'
    · rfl
    · exact hf.named id s' hs'
  · exact List.nodup_cons.2 ⟨fun h ↦ hout (.inr h), hheld⟩
  · rw [Std.TreeMap.getElem?_insert, if_neg]
    · exact hf.outside s' (((List.sublist_cons_self s held).cons_cons _).mem hs')
    · rw [compare_eq_iff_eq]
      rcases List.mem_cons.1 hs' with rfl | hs'
      · exact fun heq ↦ hout (.inl heq.symm)
      · exact fun heq ↦ hsout (heq ▸ List.mem_map_of_mem hs')

theorem leave (hg : g.Seated (s :: held)) : Seated held
    ⟨{ g.executor with states := g.executor.states.insert g.state.id g.state }, s⟩ := hg.swap.insert

theorem firm (hf : f.Seated held) (hgoing : f.state.id ∉ f.executor.removed) : f.Firm := by
  obtain ⟨h, -, hseats⟩ := hf.grown
  exact (hseats f.state (.inl rfl)).resolve_right fun habsorbed ↦ hgoing habsorbed.1

end Seated

/-- The work keeps the states at their leaves, and leaves the states that are laid aside alone. -/
structure Follows (held : List State) (f g : Focus σ) : Prop where
  seated : g.Seated held
  id_eq : g.state.id = f.state.id
  kept : ∀ s ∈ held, s.Sits f.executor.tree → s.Sits g.executor.tree

namespace Follows

theorem refl (hf : f.Seated held) : f.Follows held f := ⟨hf, rfl, fun _ _ h ↦ h⟩

theorem trans (h : f.Follows held g) (h' : g.Follows held g') : f.Follows held g' :=
  ⟨h'.seated, h'.id_eq.trans h.id_eq, fun s hs hsits ↦ h'.kept s hs (h.kept s hs hsits)⟩

theorem forget (h : f.Follows (s :: held) g) : f.Follows held g :=
  ⟨h.seated.forget, h.id_eq, fun s' hs' ↦ h.kept s' (List.mem_cons_of_mem s hs')⟩

theorem withExecutor {e : Executor σ} (hf : f.Seated held) (htree : e.tree = f.executor.tree)
    (hremoved : ∀ id ∈ f.executor.removed, id ∈ e.removed) (hnext : e.nextStateId = f.executor.nextStateId)
    (hstates : e.states = f.executor.states) : f.Follows held ⟨e, f.state⟩ :=
  ⟨hf.withExecutor htree hremoved hnext hstates, rfl, fun _ _ hs ↦ htree ▸ hs⟩

theorem withState (hf : f.Seated held) (hs : f.state.Beside s) : f.Follows held { f with state := s } :=
  ⟨hf.withState hs, hs.id_eq, fun _ _ h ↦ h⟩

end Follows

end Focus

namespace Exec

/-! ## Work that keeps states at their leaves -/

/-- However the work ends, all states are at their leaves then, and no rule is broken. Work that needs its own
state at a leaf says so by `p`, and `q` says that this is still so in the end. -/
def Seats (p q : Prop) (x : Exec σ α) : Prop :=
  ∀ held f, f.Seated held → (p → f.Firm) → x.Ends (· ≠ .misuse) f fun _ g ↦ f.Follows held g ∧ (q → g.Firm)

variable {p p' q q' r : Prop} {x : Exec σ α} {k : α → Exec σ β}

theorem Seats.mono (hx : x.Seats p q) (hp : p → p') (hq : q' → q) : x.Seats p' q' := fun held f hf hfirm ↦
  (hx held f hf (hfirm ∘ hp)).mono fun _ _ h ↦ ⟨h.1, h.2 ∘ hq⟩

theorem seats_pure (a : α) : (pure a : Exec σ α).Seats p p := fun _ _ hf hfirm ↦ ends_pure ⟨.refl hf, hfirm⟩

theorem seats_fail (e : ExecError) : (fail e : Exec σ α).Seats p p := fun _ _ hf hfirm ↦
  ends_fail ⟨.refl hf, hfirm⟩

theorem seats_throw (e : PathError) : (throw e : Exec σ α).Seats p p := fun _ _ hf hfirm ↦
  ends_throw ⟨.refl hf, hfirm⟩

theorem seats_ofExcept (r : Except PathError α) : (MonadExcept.ofExcept r : Exec σ α).Seats p p :=
  fun _ _ hf hfirm ↦ ends_ofExcept ⟨.refl hf, hfirm⟩

theorem seats_seq (hx : x.Seats p q) (hk : ∀ a, (k a).Seats q r) (h : r → q) : (x >>= k).Seats p r :=
  fun held f hf hfirm ↦ ends_bind (hx held f hf hfirm)
    (fun a g hg ↦ (hk a held g hg.1.seated hg.2).mono fun _ _ hh ↦ ⟨hg.1.trans hh.1, hh.2⟩)
    fun _ _ hg ↦ ⟨hg.1, fun hr ↦ hg.2 (h hr)⟩

theorem seats_bind (hx : x.Seats p p) (hk : ∀ a, (k a).Seats p p) : (x >>= k).Seats p p := seats_seq hx hk id

theorem seats_fail_bind (e : ExecError) : (fail e >>= k).Seats p p := fun held f hf hfirm ↦
  ends_bind (P := fun r g ↦ (∃ error, r = .error error) ∧ f.Follows held g ∧ (p → g.Firm))
    (ends_fail ⟨⟨_, rfl⟩, .refl hf, hfirm⟩) (fun _ _ h ↦ nomatch h.1) fun _ _ h ↦ h.2

theorem seats_lift {c : Checked α} {P : α → Prop} (h : Fair c P) : (liftM c : Exec σ α).Seats p p :=
  fun _ _ hf hfirm ↦ ends_lift (h.mono fun _ _ ↦ ⟨.refl hf, hfirm⟩)

theorem seats_mapM {γ : Type} {w : γ → Exec σ β} {l : List γ} (hw : ∀ x ∈ l, (w x).Seats p p) :
    (l.mapM w).Seats p p := by
  induction l with
  | nil => exact seats_pure _
  | cons x l ih =>
    rw [List.forall_mem_cons] at hw
    rw [List.mapM_cons]
    exact seats_bind hw.1 fun _ ↦ seats_bind (ih hw.2) fun _ ↦ seats_pure _

theorem seats_foldlM {γ : Type} {w : β → γ → Exec σ β} {l : List γ} {b : β}
    (hw : ∀ b, ∀ x ∈ l, (w b x).Seats p p) : (l.foldlM w b).Seats p p := by
  induction l generalizing b with
  | nil => exact seats_pure _
  | cons x l ih =>
    rw [List.foldlM_cons]
    exact seats_bind (hw b x List.mem_cons_self) fun _ ↦ ih fun b y hy ↦ hw b y (List.mem_cons_of_mem _ hy)

theorem seats_forIn {γ δ : Type} {w : γ → δ → Exec σ (ForInStep δ)} {l : List γ} {b : δ}
    (hw : ∀ x ∈ l, ∀ b, (w x b).Seats p p) : (forIn l b w : Exec σ δ).Seats p p := by
  induction l generalizing b with
  | nil => exact seats_pure _
  | cons x l ih =>
    rw [List.forall_mem_cons] at hw
    rw [List.forIn_cons]
    refine seats_bind (hw.1 b) fun r ↦ ?_
    cases r with
    | done b => exact seats_pure _
    | yield b => exact ih hw.2

/-! ## The focus -/

theorem seats_executor : (executor : Exec σ _).Seats p p := fun _ _ hf hfirm ↦ ends_executor ⟨.refl hf, hfirm⟩

theorem seats_state : (state : Exec σ State).Seats p p := fun _ _ hf hfirm ↦ ends_state ⟨.refl hf, hfirm⟩

theorem seats_modifyExecutor {u : Executor σ → Executor σ} (htree : ∀ e, (u e).tree = e.tree)
    (hremoved : ∀ e, ∀ id ∈ e.removed, id ∈ (u e).removed) (hnext : ∀ e, (u e).nextStateId = e.nextStateId)
    (hstates : ∀ e, (u e).states = e.states) : (modifyExecutor u).Seats p p := fun _ f hf hfirm ↦
  ends_modifyExecutor ⟨.withExecutor hf (htree _) (hremoved _) (hnext _) (hstates _), fun hp ↦ by
    unfold Focus.Firm
    rw [htree]
    exact hfirm hp⟩

theorem seats_updateState {u : State → Checked State} (h : ∀ s, Fair (u s) s.Beside) :
    (updateState u : Exec σ Unit).Seats p p := fun _ f hf hfirm ↦
  ends_updateState ((h f.state).mono fun _ hs ↦ ⟨.withState hf hs, fun hp ↦ hs.sits (hfirm hp)⟩)

theorem seats_draw (d : Rng → α × Rng) : (draw d : Exec σ α).Seats p p := fun _ _ hf hfirm ↦
  ends_draw ⟨.withExecutor hf rfl (fun _ h ↦ h) rfl rfl, hfirm⟩

theorem seats_isTerminated : (isTerminated : Exec σ Bool).Seats p p := fun _ _ hf hfirm ↦
  ends_isTerminated ⟨.refl hf, hfirm⟩

theorem seats_ask {question : ConstraintSet → Ask σ α} {R : α → Prop} (hq : ∀ c, (question c).Looks R) :
    (ask question).Seats p p := by
  intro held f hf hfirm
  refine ends_bind_ok rfl (ends_lift_bind ((hq f.state.constraints f.executor.solver).fair.mono fun _ _ ↦ ?_))
  exact ends_bind_ok rfl (ends_pure ⟨.withExecutor hf rfl (fun _ h ↦ h) rfl rfl, hfirm⟩)

theorem seats_query {question : ConstraintSet → Ask σ α} {R : α → Prop} (hq : ∀ c, (question c).Looks R) :
    (query question).Seats p p := by
  refine seats_bind (seats_ask hq) fun r ↦ ?_
  split
  · exact seats_pure _
  · exact seats_fail _

theorem seats_seeds? : (seeds? : Exec σ _).Seats p p := fun _ _ hf hfirm ↦
  ends_bind_ok rfl (ends_pure ⟨.refl hf, hfirm⟩)

theorem seats_forkInhibited : (forkInhibited : Exec σ Bool).Seats p p := fun _ _ hf hfirm ↦
  ends_bind_ok rfl (ends_pure ⟨.refl hf, hfirm⟩)

theorem seats_setSeeds (id : StateId) (seeds : List Seed) : (setSeeds id seeds : Exec σ Unit).Seats p p :=
  seats_modifyExecutor (fun _ ↦ rfl) (fun _ _ h ↦ h) (fun _ ↦ rfl) fun _ ↦ rfl

theorem seats_dropSeeds (id : StateId) : (dropSeeds id : Exec σ Unit).Seats p p :=
  seats_modifyExecutor (fun _ ↦ rfl) (fun _ _ h ↦ h) (fun _ ↦ rfl) fun _ ↦ rfl

theorem seats_write (r : Register) (value : Expr) : (write r value : Exec σ Unit).Seats p p :=
  seats_updateState fun s ↦ s.fair_write r value

theorem seats_writeResult (r : Option Register) (value : Expr) : (writeResult r value : Exec σ Unit).Seats p p := by
  cases r with
  | none => exact seats_pure _
  | some r => exact seats_write r value

/-! ## States that end -/

theorem seats_terminate : (terminate : Exec σ Unit).Seats p p := by
  refine seats_bind seats_isTerminated fun _ ↦ ?_
  split
  · exact seats_pure _
  · exact seats_bind seats_state fun _ ↦ seats_modifyExecutor (fun _ ↦ rfl)
      (fun _ _ h ↦ List.mem_append_left _ h) (fun _ ↦ rfl) fun _ ↦ rfl

theorem seats_emit (termination : Termination) (details : Option String) :
    (emit termination details : Exec σ Unit).Seats p p := by
  have hsolution : (solution : Exec σ Solution).Seats p p := by
    refine seats_bind seats_state fun _ ↦ seats_bind (seats_ask fun c ↦ Solver.looks_initialValues c _) fun _ ↦ ?_
    split <;> exact seats_pure _
  exact seats_bind hsolution fun _ ↦ seats_bind seats_state fun s ↦ seats_bind seats_executor fun e ↦
    seats_bind (seats_lift (s.fair_stackTrace e.program)) fun _ ↦
      seats_modifyExecutor (fun _ ↦ rfl) (fun _ _ h ↦ h) (fun _ ↦ rfl) fun _ ↦ rfl

theorem seats_terminateWith (termination : Termination) (details : Option String) :
    (terminateWith termination details : Exec σ Unit).Seats p p := by
  refine seats_bind seats_isTerminated fun _ ↦ ?_
  split
  · exact seats_pure _
  · exact seats_bind (seats_emit termination details) fun _ ↦ seats_terminate

theorem seats_terminateOnError (error : PathError) (details : Option String) :
    (terminateOnError error details : Exec σ Unit).Seats p p := by
  have hend (termination : Termination) (details : Option String) : (do
      emit termination details
      modifyExecutor fun e ↦ { e with errors := e.errors ++ [error] }
      terminate : Exec σ Unit).Seats p p :=
    seats_bind (seats_emit _ _) fun _ ↦ seats_bind
      (seats_modifyExecutor (fun _ ↦ rfl) (fun _ _ h ↦ h) (fun _ ↦ rfl) fun _ ↦ rfl) fun _ ↦ seats_terminate
  refine seats_bind seats_isTerminated fun _ ↦ ?_
  split
  · exact seats_pure _
  · refine seats_bind seats_executor fun _ ↦ ?_
    dsimp only
    split
    · split
      · exact hend _ _
      · exact seats_terminate
    · exact seats_bind (seats_modifyExecutor (fun _ ↦ rfl) (fun _ _ h ↦ h) (fun _ ↦ rfl) fun _ ↦ rfl)
        fun _ ↦ hend _ _

theorem seats_settle (error : PathError) : (settle error : Exec σ Unit).Seats p p := by
  unfold settle
  split
  · exact seats_throw error
  · split
    · exact seats_terminateWith _ _
    · exact seats_terminateOnError _ _

theorem seats_addressInfo (address : Expr) : (addressInfo address : Exec σ String).Seats p p := by
  have hneighbours (value : Nat) : (addressInfo.neighbours value : Exec σ String).Seats p p :=
    seats_bind seats_state fun _ ↦ seats_pure _
  unfold addressInfo
  dsimp only
  split
  · exact seats_bind (hneighbours _) fun _ ↦ seats_pure _
  · refine seats_bind (seats_ask fun c ↦ Solver.looks_value c _) fun r ↦ ?_
    split
    · exact seats_pure _
    · refine seats_bind (seats_ask fun c ↦ Solver.looks_range c _) fun r ↦ ?_
      split <;> exact seats_bind (seats_pure _) fun _ ↦ seats_bind (hneighbours _) fun _ ↦ seats_pure _

/-! ## Work at places -/

/-- As `Seats`, for a state at its leaf of which `S` holds. -/
def SeatsWhere (S : State → Prop) (q : Prop) (x : Exec σ α) : Prop :=
  ∀ held f, f.Seated held → f.Firm → S f.state →
    x.Ends (· ≠ .misuse) f fun _ g ↦ f.Follows held g ∧ (q → g.Firm)

variable {S : State → Prop}

theorem Seats.where (hx : x.Seats True q) : x.SeatsWhere S q := fun held f hf hfirm _ ↦ hx held f hf fun _ ↦ hfirm

theorem ends_settling_seated (hf : f.Seated held) (hS : S f.state) (hx : x.SeatsWhere S q) (hp : r → f.Firm)
    (hq : r → q) : (settling x).Ends (· ≠ .misuse) f fun _ g ↦ f.Follows held g ∧ (r → g.Firm) := by
  refine ends_settling (fun _ ↦ ⟨.refl hf, hp⟩) fun hgoing ↦ ?_
  refine (hx held f hf (hf.firm (by simpa using hgoing)) hS).mono fun result g hg ↦ ?_
  cases result with
  | ok a => exact ⟨hg.1, fun hr ↦ hg.2 (hq hr)⟩
  | error e =>
    refine (seats_settle e held g hg.1.seated (p := r) fun hr ↦ hg.2 (hq hr)).mono fun result h hh ↦ ?_
    cases result <;> exact ⟨hg.1.trans hh.1, hh.2⟩

theorem ends_visit_seated {id : StateId} (hf : f.Seated held)
    (hx : ∀ s, f.executor.states[id]? = some s →
      x.Ends (· ≠ .misuse) ⟨{ f.executor with states := f.executor.states.erase id }, s⟩ fun _ g ↦
        Focus.Follows (f.state :: held) ⟨{ f.executor with states := f.executor.states.erase id }, s⟩ g) :
    (visit id x).Ends (· ≠ .misuse) f fun _ g ↦ f.Follows held g ∧ (f.Firm → g.Firm) := by
  refine ends_visit (fun _ ↦ ⟨.refl hf, fun h ↦ h⟩) fun s hs ↦ (hx s hs).mono fun _ g hg ↦ ?_
  have hid : g.state.id = id := hg.id_eq.trans (hf.named id s hs)
  refine ⟨⟨hid ▸ hg.seated.leave, rfl, fun s' hs' ↦ hg.kept s' (List.mem_cons_of_mem _ hs')⟩, fun hfirm ↦ ?_⟩
  exact hg.kept f.state List.mem_cons_self hfirm

theorem seats_visit (id : StateId) (hx : x.Seats False q) : (visit id x).Seats p p := fun _ _ hf hfirm ↦
  (ends_visit_seated hf fun _ hs ↦ (hx _ _ (hf.enter hs) False.elim).mono fun _ _ h ↦ h.1).mono
    fun _ _ h ↦ ⟨h.1, h.2 ∘ hfirm⟩

theorem ends_onBranch_seated {branch : Branch} (hf : f.Seated held) (hS : ∀ s, f.stateAt? branch = some s → S s)
    (hx : x.SeatsWhere S q) (hp : r → f.Firm) (hq : r → q) :
    (onBranch branch x).Ends (· ≠ .misuse) f fun _ g ↦ f.Follows held g ∧ (r → g.Firm) := by
  cases branch with
  | current => exact ends_settling_seated hf (hS _ rfl) hx hp hq
  | forked id =>
    refine ends_bind (P := fun _ g ↦ f.Follows held g ∧ (f.Firm → g.Firm)) (ends_visit_seated hf fun s hs ↦ ?_)
      (fun _ _ h ↦ ends_pure ⟨h.1, h.2 ∘ hp⟩) fun _ _ h ↦ ⟨h.1, h.2 ∘ hp⟩
    exact (ends_settling_seated (hf.enter hs) (hS s hs) hx False.elim False.elim).mono fun _ _ h ↦ h.1

theorem seats_onBranch (branch : Branch) (hx : x.Seats True q) (hp : r → p) (hq : r → q) :
    (onBranch branch x).Seats p r := fun _ _ hf hfirm ↦
  ends_onBranch_seated (S := fun _ ↦ True) hf (fun _ _ ↦ trivial) hx.where (hfirm ∘ hp) hq

theorem ends_onSide_seated {side : Option Branch} {x : Exec σ Unit} (hf : f.Seated held)
    (hS : ∀ b s, side = some b → f.stateAt? b = some s → S s) (hx : x.SeatsWhere S q) (hp : r → f.Firm)
    (hq : r → q) : (onSide side x).Ends (· ≠ .misuse) f fun _ g ↦ f.Follows held g ∧ (r → g.Firm) := by
  cases side with
  | none => exact ends_pure ⟨.refl hf, hp⟩
  | some b => exact ends_bind (ends_onBranch_seated hf (hS b · rfl) hx hp hq) (fun _ _ h ↦ ends_pure h) fun _ _ h ↦ h

theorem seats_onSide (side : Option Branch) {x : Exec σ Unit} (hx : x.Seats True q) (hp : r → p) (hq : r → q) :
    (onSide side x).Seats p r := fun _ _ hf hfirm ↦
  ends_onSide_seated (S := fun _ ↦ True) hf (fun _ _ _ _ ↦ trivial) hx.where (hfirm ∘ hp) hq

end Exec

end Symex
