import Symex.Proofs.Descent.Seats
import Symex.Proofs.Threads.Schedules

namespace Symex

open Checked

variable {σ α β : Type} {f g g' : Focus σ} {held : List State} {s child : State} {p q r : Prop}

namespace Exec

variable {x : Exec σ α} {k : α → Exec σ β}

theorem seats_toUnique (e : Expr) : (toUnique e : Exec σ Expr).Seats p p := by
  unfold toUnique
  split
  · exact seats_pure _
  · refine seats_bind (seats_ask fun c ↦ Solver.looks_value c e) fun r ↦ ?_
    split
    · exact seats_pure _
    · refine seats_bind (seats_lift (Expr.plain_mkEq _ _).fair) fun same ↦
        seats_bind (seats_ask fun c ↦ Solver.looks_mustBeTrue c same) fun r ↦ ?_
      split <;> exact seats_pure _

theorem seats_patchSeeds (condition : Expr) : (patchSeeds condition : Exec σ Unit).Seats p p := by
  refine seats_bind seats_seeds? fun seeds ↦ ?_
  split
  · dsimp only
    split
    · exact seats_pure _
    · refine seats_bind seats_state fun s ↦
        seats_bind (seats_query fun c ↦ Solver.looks_initialValues c _) fun values ↦ ?_
      split
      · exact seats_setSeeds _ _
      · exact seats_pure _
  · exact seats_pure _

theorem seats_addConstraint (condition : Expr) : (addConstraint condition : Exec σ Unit).Seats p p :=
  seats_bind (seats_updateState fun s ↦ s.fair_addConstraint condition) fun _ ↦ seats_patchSeeds condition

theorem seats_toConstant (e : Expr) : (toConstant e : Exec σ Expr).Seats p p := by
  unfold toConstant
  split
  · exact seats_pure _
  · exact seats_bind (seats_query fun c ↦ Solver.looks_value c e) fun _ ↦
      seats_bind (seats_lift (Expr.plain_mkEq _ _).fair) fun _ ↦
        seats_bind (seats_addConstraint _) fun _ ↦ seats_pure _

theorem seats_recordSide (side internal : Bool) : (recordSide side internal : Exec σ Unit).Seats p p := by
  cases internal with
  | true => exact seats_pure _
  | false => exact seats_updateState fun s ↦ Checked.ends_pure (State.beside_of_eq rfl rfl rfl rfl)

theorem seats_takeSide (condition : Expr) (side : Bool) : (takeSide condition side : Exec σ Validity).Seats p p :=
  seats_bind (seats_addConstraint _) fun _ ↦ seats_pure _

theorem seats_restrict (condition : Expr) (internal : Bool) (validity : Validity) :
    (restrict condition internal validity : Exec σ Validity).Seats p p := by
  refine seats_bind seats_executor fun _ ↦ seats_bind seats_seeds? fun seeds ↦ ?_
  split
  · refine seats_bind seats_executor fun _ ↦ ?_
    split
    · exact seats_pure _
    · exact seats_fail _
    · refine seats_bind (seats_modifyExecutor (fun _ ↦ rfl) (fun _ _ h ↦ h) (fun _ ↦ rfl) fun _ ↦ rfl) fun _ ↦ ?_
      split
      · exact seats_fail _
      · exact seats_fail _
      · exact seats_takeSide _ _
      · exact seats_pure _
  · split
    · split
      · refine seats_bind seats_state fun _ ↦ ?_
        split
        · unfold followSeeds
          dsimp only
          split
          · exact seats_takeSide _ _
          · exact seats_pure _
        · exact seats_pure _
      · refine seats_bind seats_forkInhibited fun _ ↦ ?_
        split
        · exact seats_bind (seats_draw _) fun _ ↦ seats_takeSide _ _
        · exact seats_pure _
    · exact seats_pure _

end Exec

namespace Focus

/-- A copy came up, and both states are at new leaves. The others are where they were. -/
structure Spawns (held : List State) (f : Focus σ) (child : State) (g : Focus σ) : Prop where
  seated : g.Seated (child :: held)
  firm : g.Firm
  sits : child.Sits g.executor.tree
  id_eq : g.state.id = f.state.id
  childId_eq : child.id = f.executor.nextStateId
  states_eq : g.executor.states = f.executor.states
  waits : f.state.SameWaits g.state
  childWaits : f.state.SameWaits child
  kept : ∀ s : State, s.id ≠ f.state.id → s.Sits f.executor.tree → s.Sits g.executor.tree

theorem Seated.ne_of_mem_held (hf : f.Seated held) (hs : s ∈ held) : s.id ≠ f.state.id := by
  have hnodup := hf.nodup
  rw [List.map_cons, List.nodup_cons] at hnodup
  exact fun heq ↦ hnodup.1 (heq ▸ List.mem_map_of_mem hs)

theorem Seated.ne_of_live {id : StateId} (hf : f.Seated held) (hs : f.executor.states[id]? = some s) :
    s.id ≠ f.state.id := by
  intro heq
  have hnone := hf.outside f.state List.mem_cons_self
  rw [← heq, hf.named id s hs, hs] at hnone
  cases hnone

end Focus

namespace Exec

variable {x : Exec σ α} {k : α → Exec σ β}

theorem ends_spawn_seated (hf : f.Seated held) (hfirm : f.Firm) :
    (spawn : Exec σ State).Ends (· ≠ .misuse) f fun r g ↦ ∃ child, r = .ok child ∧ f.Spawns held child g := by
  obtain ⟨h, hgrown, hseats⟩ := hf.grown
  obtain ⟨n, hn, hleaf⟩ := hfirm
  obtain ⟨l, right, tree, hsplit, hgrown', hl, hright, hkept⟩ :=
    hgrown.exists_split (hgrown.linked.leaves_eq ▸ hleaf) f.state.id f.executor.nextStateId
  have hsits : ∀ s : State, s.id ≠ f.state.id → s.Sits f.executor.tree → s.Sits tree := by
    rintro s hne ⟨m, hm, hmleaf⟩
    refine ⟨m, hm, hkept m s.id ?_ hmleaf⟩
    rintro rfl
    exact hne (ProcessTree.eq_of_mem_leaves hmleaf hleaf)
  refine ends_bind_ok rfl ?_
  dsimp only
  split
  · rename_i hnone
    exact absurd (hn.symm.trans hnone) nofun
  · rename_i m hm
    obtain rfl : n = m := Option.some.inj (hn.symm.trans hm)
    refine ends_lift_bind ?_
    rw [show f.executor.tree.split n (f.state.branch f.executor.nextStateId).1.id f.executor.nextStateId = _
      from hsplit]
    have hown : f.state.Apart := hf.apart f.state (.inl rfl)
    have hlt := hf.id_lt f.state (.inl rfl)
    have hfresh : f.executor.nextStateId ∉ (f.state :: held).map (·.id) := by
      intro hmem
      obtain ⟨s, hs, hid⟩ := List.mem_map.1 hmem
      exact Nat.ne_of_lt (hf.id_lt s ((List.mem_cons.1 hs).imp_right .inl)) hid
    have hnone : f.executor.states[f.executor.nextStateId]? = none := by
      cases hs : f.executor.states[f.executor.nextStateId]? with
      | none => rfl
      | some s =>
        have hlt := hf.id_lt s (.inr (.inr ⟨_, hs⟩))
        rw [hf.named _ s hs] at hlt
        exact absurd hlt (Nat.lt_irrefl _)
    refine Checked.ends_pure (ends_bind_ok rfl (ends_pure ⟨_, rfl, ?_⟩))
    refine ⟨⟨⟨_, hgrown', fun s hs ↦ ?_⟩, fun s hs ↦ ?_, fun s hs ↦ ?_, hf.named, ?_, fun s hs ↦ ?_⟩, ⟨l, rfl, hl⟩,
      ⟨right, rfl, hright⟩, rfl, rfl, rfl, ⟨rfl, rfl, rfl⟩, ⟨rfl, rfl, rfl⟩, hsits⟩
    · rcases hs with rfl | hs | ⟨id, hs⟩
      · exact .inl ⟨l, rfl, hl⟩
      · rcases List.mem_cons.1 hs with rfl | hs
        · exact .inl ⟨right, rfl, hright⟩
        · exact (hseats s (.inr (.inl hs))).imp_left (hsits s (hf.ne_of_mem_held hs))
      · exact (hseats s (.inr (.inr ⟨id, hs⟩))).imp_left (hsits s (hf.ne_of_live hs))
    · rcases hs with rfl | hs | hs
      · exact ⟨hown.nodup, hown.id_lt⟩
      · rcases List.mem_cons.1 hs with rfl | hs
        · exact ⟨hown.nodup, hown.id_lt⟩
        · exact hf.apart s (.inr (.inl hs))
      · exact hf.apart s (.inr (.inr hs))
    · rcases hs with rfl | hs | hs
      · exact Nat.lt_succ_of_lt hlt
      · rcases List.mem_cons.1 hs with rfl | hs
        · exact Nat.lt_succ_self _
        · exact Nat.lt_succ_of_lt (hf.id_lt s (.inr (.inl hs)))
      · exact Nat.lt_succ_of_lt (hf.id_lt s (.inr (.inr hs)))
    · refine ((List.Perm.swap _ _ _).map _).nodup_iff.1 (List.nodup_cons.2 ⟨hfresh, hf.nodup⟩)
    · rcases List.mem_cons.1 hs with rfl | hs
      · exact hf.outside f.state List.mem_cons_self
      · rcases List.mem_cons.1 hs with rfl | hs
        · exact hnone
        · exact hf.outside s (List.mem_cons_of_mem _ hs)

/-- The work finds a place for a state that is not among the live states yet. -/
def Places (child : State) (q : Prop) (x : Exec σ α) : Prop :=
  ∀ held f, f.Seated (child :: held) → f.Firm → child.Sits f.executor.tree →
    x.Ends (· ≠ .misuse) f fun _ g ↦ f.Follows held g ∧ (q → g.Firm)

theorem Seats.places (hx : x.Seats True q) : x.Places child q := fun _ f hf hfirm _ ↦
  (hx _ f hf fun _ ↦ hfirm).mono fun _ _ h ↦ ⟨h.1.forget, h.2⟩

theorem places_bind (hx : x.Seats True True) (hk : ∀ a, (k a).Places child q) : (x >>= k).Places child q :=
  fun held f hf hfirm hsits ↦ ends_bind (hx _ f hf fun _ ↦ hfirm) (fun a g hg ↦
    (hk a held g hg.1.seated (hg.2 trivial) (hg.1.kept child List.mem_cons_self hsits)).mono
      fun _ _ hh ↦ ⟨hg.1.forget.trans hh.1, hh.2⟩) fun _ _ hg ↦ ⟨hg.1.forget, fun _ ↦ hg.2 trivial⟩

theorem places_insertState {k : Unit → Exec σ β} (hk : (k ()).Seats True q) :
    (insertState child >>= k).Places child q := fun held _ hf hfirm _ ↦
  ends_bind_ok rfl ((hk held _ hf.insert fun _ ↦ hfirm).mono fun _ _ h ↦ ⟨⟨h.1.seated, h.1.id_eq, h.1.kept⟩, h.2⟩)

theorem places_within {k : Except PathError α × State → Exec σ β} (hx : x.Seats True True)
    (hk : ∀ r child', (k (r, child')).Places child' q) : (within child x >>= k).Places child q := by
  intro held f hf hfirm hsits
  have hwork := hx (f.state :: held) { f with state := child } hf.swap fun _ ↦ hsits
  refine ends_bind (P := fun r g ↦ ∃ result child', r = .ok (result, child') ∧ g.Seated (child' :: held) ∧
    g.Firm ∧ child'.Sits g.executor.tree ∧ f.Follows held g) (ends_within (hwork.mono fun r g hg ↦ ?_)) ?_ ?_
  · refine ⟨r, g.state, rfl, hg.1.seated.swap, hg.1.kept f.state List.mem_cons_self hfirm, hg.2 trivial, ?_⟩
    exact ⟨hg.1.seated.swap.forget, rfl, fun s hs ↦ hg.1.kept s (List.mem_cons_of_mem _ hs)⟩
  · rintro _ g ⟨result, child', ⟨⟩, hg, hgfirm, hgsits, hfollows⟩
    exact (hk result child' held g hg hgfirm hgsits).mono fun _ _ h ↦ ⟨hfollows.trans h.1, h.2⟩
  · rintro _ _ ⟨_, _, ⟨⟩, -⟩

theorem seats_spawn_bind {k : State → Exec σ β} (hk : ∀ child, (k child).Places child q) :
    (spawn >>= k).Seats True q := by
  intro held f hf hfirm
  refine ends_bind (ends_spawn_seated hf (hfirm trivial)) ?_ ?_
  · rintro child g ⟨_, ⟨⟩, hg⟩
    refine (hk child held g hg.seated hg.firm hg.sits).mono fun _ _ h ↦
      ⟨⟨h.1.seated, h.1.id_eq.trans hg.id_eq, ?_⟩, h.2⟩
    exact fun s hs hsits ↦ h.1.kept s hs (hg.kept s (hf.ne_of_mem_held hs) hsits)
  · rintro _ _ ⟨_, ⟨⟩, -⟩

theorem places_bothSides (condition : Expr) (internal : Bool) : (do
      recordSide true internal
      addConstraint condition
      let (result, child) ← within child do
        recordSide false internal
        addConstraint condition.isZero
      MonadExcept.ofExcept result
      let maxDepth := (← executor).config.maxDepth
      if maxDepth ≠ 0 ∧ maxDepth ≤ (← state).depth then
        terminateEarly "max-depth exceeded"
        insertState child
        let _ ← visit child.id (terminateEarly "max-depth exceeded")
        return (none, none)
      insertState child
      return (some .current, some (.forked child.id)) : Exec σ Sides).Places child True := by
  refine places_bind (seats_recordSide true internal) fun _ ↦ places_bind (seats_addConstraint _) fun _ ↦ ?_
  refine places_within (seats_bind (seats_recordSide false internal) fun _ ↦ seats_addConstraint _)
    fun result child' ↦ ?_
  refine places_bind (seats_ofExcept _) fun _ ↦ places_bind seats_executor fun _ ↦
    places_bind seats_state fun _ ↦ ?_
  split
  · refine places_bind (seats_terminateWith _ _) fun _ ↦ places_insertState ?_
    exact seats_bind (seats_visit _ (seats_terminateWith _ _)) fun _ ↦ seats_pure _
  · exact places_insertState (seats_pure _)

theorem seats_split (condition : Expr) (internal : Bool) :
    (split condition internal : Exec σ Sides).Seats True True := by
  refine seats_bind (seats_modifyExecutor (fun _ ↦ rfl) (fun _ _ h ↦ h) (fun _ ↦ rfl) fun _ ↦ rfl) fun _ ↦ ?_
  refine seats_spawn_bind fun child ↦ places_bind seats_state fun s ↦ places_bind seats_seeds? fun seeds ↦ ?_
  have hboth := @places_bothSides σ child condition internal
  dsimp only
  split
  · refine places_bind (seats_dropSeeds _) fun _ ↦ ?_
    split
    · split
      · exact hboth
      · exact places_bind (seats_setSeeds _ _) fun _ ↦ hboth
    · refine places_bind (seats_setSeeds _ _) fun _ ↦ ?_
      split
      · exact hboth
      · exact places_bind (seats_setSeeds _ _) fun _ ↦ hboth
  · exact hboth

theorem seats_fork (condition : Expr) (internal : Bool) :
    (fork condition internal : Exec σ Sides).Seats True True := by
  refine seats_bind (seats_query fun c ↦ Solver.looks_evaluate c condition) fun _ ↦
    seats_bind (seats_restrict _ _ _) fun v ↦ ?_
  cases v with
  | always => exact seats_bind (seats_recordSide _ _) fun _ ↦ seats_pure _
  | never => exact seats_bind (seats_recordSide _ _) fun _ ↦ seats_pure _
  | sometimes => exact seats_split _ _

theorem seats_forkOn (branch : Branch) (condition : Expr) (internal : Bool) :
    (forkOn branch condition internal : Exec σ Sides).Seats p p := by
  refine seats_bind (seats_onBranch branch (seats_fork condition internal) (fun h ↦ h) fun _ ↦ trivial) fun o ↦ ?_
  split <;> exact seats_pure _

end Exec

end Symex
