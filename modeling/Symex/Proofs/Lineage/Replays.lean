import Symex.Proofs.Lineage.Runs

namespace Symex

open Checked

variable {σ : Type} {I : Inputs} {twins lost : Prop} {p : List Bool} {k : Nat}

theorem Executor.not_unled {e : Executor σ} {rest : List Bool} (hpath : e.replayPath = some rest)
    (hseeds : e.seeds.isEmpty) : ¬e.Unled := by
  rintro (hnone | hsome)
  · exact nomatch hnone.symm.trans hpath
  · exact nomatch hsome.symm.trans hseeds

theorem take_succ_of_drop {side : Bool} {rest : List Bool} (h : p.drop k = side :: rest) :
    p.take (k + 1) = p.take k ++ [side] ∧ p.drop (k + 1) = rest := by
  rw [List.take_add_one, ← List.head?_drop, ← List.tail_drop, h]
  exact ⟨rfl, rfl⟩

/-- The machine has taken the first `k` sides of `p` in replay, and all paths are made of these. -/
structure Executor.Led (p : List Bool) (k : Nat) (e : Executor σ) : Prop where
  replayPath_eq : e.replayPath = some (p.drop k)
  seeds : e.seeds.isEmpty
  states : ∀ (id : StateId) (s : State), e.states[id]? = some s → s.path.Sublist (p.take k)
  cases : ∀ c ∈ e.cases, c.path.Sublist (p.take k)

namespace Executor

variable {e : Executor σ} {id : StateId}

theorem Led.erase (h : e.Led p k) (id : StateId) : Led p k { e with states := e.states.erase id } := by
  refine ⟨h.replayPath_eq, h.seeds, fun id' s hs ↦ ?_, h.cases⟩
  dsimp only at hs
  rw [Focus.getElem?_erase_state] at hs
  split at hs
  · cases hs
  · exact h.states id' s hs

theorem Led.insert {s : State} (h : e.Led p k) (hs : s.path.Sublist (p.take k)) (id : StateId) :
    Led p k { e with states := e.states.insert id s } := by
  refine ⟨h.replayPath_eq, h.seeds, fun id' s' hs' ↦ ?_, h.cases⟩
  dsimp only at hs'
  rw [Focus.getElem?_insert_state] at hs'
  split at hs'
  · exact Option.some.inj hs' ▸ hs
  · exact h.states id' s' hs'

end Executor

namespace Focus

variable {f g : Focus σ}

/-- Also the path of the state that is worked on. -/
structure Led (p : List Bool) (k : Nat) (f : Focus σ) : Prop where
  executor : f.executor.Led p k
  path : f.state.path.Sublist (p.take k)

theorem Led.not_unled (h : f.executor.Led p k) : ¬f.executor.Unled :=
  Executor.not_unled h.replayPath_eq h.seeds

theorem Own.led (h : f.Own I g) (hf : f.Led p k) : g.Led p k := by
  have hnot := Led.not_unled hf.executor
  have hpath : g.state.path = f.state.path := h.part.path.resolve_left hnot
  refine ⟨⟨h.steady.replayPath_eq.trans hf.executor.replayPath_eq, h.steady.seeds hf.executor.seeds,
    fun id s hs ↦ hf.executor.states id s (h.states_eq id ▸ hs), fun c hc ↦ ?_⟩, hpath ▸ hf.path⟩
  obtain hc | hc | ⟨hc, -⟩ := h.cases c hc
  · exact hf.executor.cases c hc
  · exact absurd hc hnot
  · exact hc ▸ hf.path

theorem Spread.led {bound : Branch → Assignment → Prop} (h : f.Spread I bound g) (hf : f.Led p k) :
    g.Led p k := by
  have hnot := Led.not_unled hf.executor
  have hpath : ∀ {s}, f.Part s → s.path.Sublist (p.take k) := fun hs ↦
    hs.path.resolve_left hnot ▸ hf.path
  refine ⟨⟨h.steady.replayPath_eq.trans hf.executor.replayPath_eq, h.steady.seeds hf.executor.seeds,
    fun id s hs ↦ ?_, fun c hc ↦ ?_⟩, hpath h.part⟩
  · by_cases hlt : id < f.executor.nextStateId
    · exact hf.executor.states id s (h.old id hlt ▸ hs)
    · exact hpath (h.parts id (Nat.le_of_not_lt hlt) s hs)
  · obtain hc | hc | ⟨hc, -⟩ := h.cases c hc
    · exact hf.executor.cases c hc
    · exact absurd hc hnot
    · exact hc ▸ hf.path

theorem Merge.led {id : StateId} {other merged : State} (h : f.Merge I g id other merged)
    (hf : f.Led p k) : g.Led p k := by
  refine ⟨⟨h.steady.replayPath_eq.trans hf.executor.replayPath_eq, h.steady.seeds hf.executor.seeds,
    fun id' s hs ↦ ?_, fun c hc ↦ hf.executor.cases c (h.cases_eq ▸ hc)⟩, h.state_eq ▸ hf.path⟩
  rw [h.states_eq, getElem?_insert_state] at hs
  split at hs
  · obtain rfl := Option.some.inj hs
    exact h.path_eq ▸ hf.executor.states id other h.other_eq
  · exact hf.executor.states id' s hs

theorem Led.withReplayPath {side : Bool} {rest : List Bool} (hf : f.Led p k)
    (h : f.executor.replayPath = some (side :: rest)) :
    p.take (k + 1) = p.take k ++ [side] ∧ (f.withReplayPath rest).Led p (k + 1) := by
  have hdrop : p.drop k = side :: rest := Option.some.inj (hf.executor.replayPath_eq.symm.trans h)
  obtain ⟨htake, hrest⟩ := take_succ_of_drop hdrop
  have hsub : (p.take k).Sublist (p.take (k + 1)) := htake ▸ List.sublist_append_left _ _
  exact ⟨htake, ⟨congrArg some hrest.symm, hf.executor.seeds, fun id s hs ↦ (hf.executor.states id s hs).trans hsub,
    fun c hc ↦ (hf.executor.cases c hc).trans hsub⟩, hf.path.trans hsub⟩

theorem Moves.led (h : f.Moves I twins lost g) (hf : f.Led p k) : ∃ k' ≥ k, g.Led p k' := by
  induction h generalizing k with
  | own h => exact ⟨k, Nat.le_refl k, h.led hf⟩
  | trans _ _ ihf ihg =>
    obtain ⟨k', hk', hg⟩ := ihf hf
    obtain ⟨k'', hk'', hh⟩ := ihg hg
    exact ⟨k'', Nat.le_trans hk' hk'', hh⟩
  | @follow f g side rest hreplay h _ =>
    obtain ⟨htake, hled⟩ := hf.withReplayPath hreplay
    have hg := h.led hled
    have hpath : g.state.path = f.state.path := h.part.path.resolve_left (Led.not_unled hled.executor)
    refine ⟨k + 1, Nat.le_succ k, ⟨hg.executor.replayPath_eq, hg.executor.seeds, hg.executor.states,
      hg.executor.cases⟩, ?_⟩
    change (g.state.path ++ [side]).Sublist _
    rw [htake, hpath]
    exact hf.path.append_right _
  -- the side is gone from the path although no state went there
  | stray _ hreplay => exact ⟨k + 1, Nat.le_succ k, (hf.withReplayPath hreplay).2⟩
  | divide h => exact ⟨k, Nat.le_refl k, h.spread.led hf⟩
  | merge h => exact ⟨k, Nat.le_refl k, h.led hf⟩
  | visit hs _ ih =>
    obtain ⟨k', hk', hg⟩ := ih ⟨hf.executor.erase _, hf.executor.states _ _ hs⟩
    exact ⟨k', hk', hg.executor.insert hg.path _, hf.path.trans (List.take_prefix_take_left hk').sublist⟩

end Focus

namespace Executor

variable {e e' : Executor σ}

theorem Develops.led (h : e.Develops I twins lost e') (he : e.Led p k) : ∃ k' ≥ k, e'.Led p k' := by
  induction h generalizing k with
  | @alike e e' h =>
    refine ⟨k, Nat.le_refl k, h.replayPath_eq.trans he.replayPath_eq, h.seeds he.seeds, fun id s hs ↦ ?_,
      fun c hc ↦ he.cases c (h.cases_eq ▸ hc)⟩
    exact he.states id s (h.states_eq ▸ hs)
  | trans _ _ ih ih' =>
    obtain ⟨k', hk', he'⟩ := ih he
    obtain ⟨k'', hk'', he''⟩ := ih' he'
    exact ⟨k'', Nat.le_trans hk' hk'', he''⟩
  | visit hs h =>
    obtain ⟨k', hk', hg⟩ := h.led ⟨he.erase _, he.states _ _ hs⟩
    exact ⟨k', hk', hg.executor.insert hg.path _⟩
  | @settle e e' h =>
    refine ⟨k, Nat.le_refl k, h.steady.replayPath_eq.trans he.replayPath_eq, h.steady.seeds he.seeds,
      fun id s hs ↦ ?_, fun c hc ↦ he.cases c (h.cases_eq ▸ hc)⟩
    rw [h.states_eq] at hs
    split at hs
    · cases hs
    · exact he.states id s hs

/-- A machine that was set up to replay `p`, without seeds, or that comes out of such a one after any number
of commands. -/
inductive Replays (I : Inputs) (p : List Bool) : Executor σ → Prop
  | prepared {e : Executor σ} (h : Prepared I e) (hpath : e.replayPath = some p) (hseeds : e.seeds.isEmpty) :
      Replays I p e
  | perform {e e' : Executor σ} (h : Replays I p e) (c : Command) (he' : c.perform.run e = .ok ((), e')) :
      Replays I p e'

theorem Fresh.led (h : e.Fresh) (hpath : e.replayPath = some p) (hseeds : e.seeds.isEmpty) : e.Led p 0 := by
  refine ⟨hpath, hseeds, fun id s hs ↦ ?_, fun c hc ↦ ?_⟩
  · rw [(h.states id s hs).2.2]
    exact List.nil_sublist _
  · simp [h.cases_eq] at hc

/-- What holds of all machines in a replay. -/
structure Following (I : Inputs) (p : List Bool) (e : Executor σ) : Prop where
  sound : e.Sound I
  tidy : e.Tidy
  removed_eq : e.removed = []
  led : ∃ k, e.Led p k

theorem Replays.following (h : Replays I p e) : e.Following I p := by
  induction h with
  | prepared h hpath hseeds => exact ⟨h.sound, h.fresh.tidy, h.fresh.removed_eq, 0, h.fresh.led hpath hseeds⟩
  | @perform e e' _ c he' ih =>
    have hperform : Ends (fun _ ↦ True) (c.perform.run e) fun q ↦ e.Develops I True True q.2 ∧ q.2.removed = [] :=
      ends_perform c ih.sound ih.tidy ih.removed_eq (fun _ ↦ trivial) fun h ↦ absurd trivial h
    obtain ⟨hdevelops, hremoved⟩ := hperform.of_eq he'
    obtain ⟨k, hled⟩ := ih.led
    obtain ⟨k', -, hled'⟩ := hdevelops.led hled
    exact ⟨(keeps_perform c e ih.sound).of_eq he', hdevelops.tidy ih.tidy, hremoved, k', hled'⟩

end Executor

/-! ## Replays of one state -/

namespace Focus

variable {f g : Focus σ}

/-- The state has taken just the first `k` sides of `p`, and it has ended if there is a test case. -/
structure Retraces (p : List Bool) (k : Nat) (f : Focus σ) : Prop where
  replayPath_eq : f.executor.replayPath = some (p.drop k)
  seeds : f.executor.seeds.isEmpty
  path_eq : f.state.path = p.take k
  cases : ∀ c ∈ f.executor.cases, c.path = p.take k ∧ ¬f.Going

theorem Retraces.stays (hf : f.Retraces p k) (hpart : f.Part g.state) (hsteady : f.executor.Steady g.executor)
    (hgoing : g.Going → f.Going) (hcases : ∀ c ∈ g.executor.cases, f.Told g c)
    (hnext : g.executor.nextStateId = f.executor.nextStateId) : g.Retraces p k := by
  have hnot := Executor.not_unled hf.replayPath_eq hf.seeds
  refine ⟨hsteady.replayPath_eq.trans hf.replayPath_eq, hsteady.seeds hf.seeds,
    (hpart.path.resolve_left hnot).trans hf.path_eq, fun c hc ↦ ?_⟩
  obtain hc | hu | ⟨hpath, hends⟩ := hcases c hc
  · obtain ⟨hpath, hends⟩ := hf.cases c hc
    exact ⟨hpath, fun hg ↦ hends (hgoing hg)⟩
  · exact absurd hu hnot
  · exact ⟨hpath.trans hf.path_eq, hends hnext⟩

theorem Retraces.follow {side : Bool} {rest : List Bool} (hf : f.Retraces p k)
    (hreplay : f.executor.replayPath = some (side :: rest)) (h : (f.withReplayPath rest).Own I g)
    (hgoing : g.Going) (hnext : g.executor.nextStateId = f.executor.nextStateId) :
    (g.recorded side false).Retraces p (k + 1) := by
  obtain ⟨htake, hrest⟩ := take_succ_of_drop (Option.some.inj (hf.replayPath_eq.symm.trans hreplay))
  have hnot : ¬(f.withReplayPath rest).executor.Unled := Executor.not_unled rfl hf.seeds
  refine ⟨h.steady.replayPath_eq.trans (congrArg some hrest.symm), h.steady.seeds hf.seeds, ?_, fun c hc ↦ ?_⟩
  · change g.state.path ++ [side] = _
    rw [h.part.path.resolve_left hnot, htake, ← hf.path_eq]
    rfl
  · -- a state that goes on has no test case yet
    obtain hc | hu | ⟨-, hends⟩ := h.cases c hc
    · exact absurd (h.going hgoing) (hf.cases c hc).2
    · exact absurd hu hnot
    · exact absurd hgoing (hends hnext)

theorem Tidy.alone (hf : f.Tidy) (hone : f.executor.nextStateId ≤ 1) (id : StateId) :
    f.executor.states[id]? = Option.none := by
  refine Option.eq_none_iff_forall_ne_some.2 fun s hs ↦ ?_
  have hid : id = 0 := Nat.lt_one_iff.1 (Nat.lt_of_lt_of_le (hf.named id s hs).2 hone)
  have hown : f.state.id = 0 := Nat.lt_one_iff.1 (Nat.lt_of_lt_of_le hf.own_lt hone)
  rw [hid, ← hown] at hs
  exact nomatch hs.symm.trans hf.own_none

theorem Moves.retraces (h : f.Moves I twins False g) (hf : f.Tidy) (hone : g.executor.nextStateId ≤ 1)
    (hled : f.Retraces p k) : ∃ k' ≥ k, g.Retraces p k' := by
  have hnext {f g : Focus σ} (hf : f.Tidy) (hone : g.executor.nextStateId ≤ 1)
      (hle : f.executor.nextStateId ≤ g.executor.nextStateId) :
      g.executor.nextStateId = f.executor.nextStateId :=
    Nat.le_antisymm (Nat.le_trans hone (Nat.zero_lt_of_lt hf.own_lt)) hle
  induction h generalizing k with
  | own h =>
    exact ⟨k, Nat.le_refl k, hled.stays h.part h.steady h.going h.cases (hnext hf hone h.next_le)⟩
  | trans hf' hg' ihf ihg =>
    have htidy := (hf'.succeeds hf).tidy
    obtain ⟨k', hk', hg⟩ := ihf hf (Nat.le_trans (hg'.succeeds htidy).next_le hone) hled
    obtain ⟨k'', hk'', hh⟩ := ihg htidy hone hg
    exact ⟨k'', Nat.le_trans hk' hk'', hh⟩
  | follow hreplay h hgoing =>
    exact ⟨k + 1, Nat.le_succ k, hled.follow hreplay h hgoing (hnext hf hone h.next_le)⟩
  | stray hlost _ => exact hlost.elim
  | divide h =>
    exact ⟨k, Nat.le_refl k, hled.stays h.spread.part h.spread.steady h.spread.going h.spread.cases
      (hnext hf hone h.spread.next_le)⟩
  | merge h => exact nomatch h.other_eq.symm.trans (hf.alone (h.next_eq ▸ hone) _)
  | visit hs h _ =>
    exact nomatch hs.symm.trans (hf.alone (Nat.le_trans (h.succeeds (hf.visit hs)).next_le hone) _)

end Focus

namespace Executor

variable {e e' : Executor σ}

/-- All live states have taken just the first `k` sides of `p`, and all have ended if there is a test case. -/
structure Retraces (p : List Bool) (k : Nat) (e : Executor σ) : Prop where
  replayPath_eq : e.replayPath = some (p.drop k)
  seeds : e.seeds.isEmpty
  states : ∀ (id : StateId) (s : State), e.states[id]? = some s → s.path = p.take k
  cases : ∀ c ∈ e.cases, c.path = p.take k ∧ ∀ id : StateId, e.states[id]? ≠ none → id ∈ e.removed

theorem Retraces.of_focus {g : Focus σ} {id : StateId} (hg : g.Retraces p k)
    (halone : ∀ id' : StateId, g.executor.states[id']? = none) (hid : g.state.id = id) :
    Retraces p k { g.executor with states := g.executor.states.insert id g.state } := by
  have honly : ∀ id' : StateId, (g.executor.states.insert id g.state)[id']? =
      if id = id' then some g.state else none := fun id' ↦ by
    rw [Focus.getElem?_insert_state, halone]
  refine ⟨hg.replayPath_eq, hg.seeds, fun id' s' hs' ↦ ?_, fun c hc ↦ ⟨(hg.cases c hc).1, fun id' hs' ↦ ?_⟩⟩
  · rw [honly] at hs'
    split at hs'
    · exact Option.some.inj hs' ▸ hg.path_eq
    · cases hs'
  · rw [honly] at hs'
    obtain rfl : id = id' := by
      by_contra hne
      exact hs' (if_neg hne)
    have hends := (hg.cases c hc).2
    rw [Focus.Going, not_not, hid] at hends
    exact hends

theorem Develops.next_le (h : e.Develops I twins lost e') (he : e.Tidy) : e.nextStateId ≤ e'.nextStateId := by
  induction h with
  | alike h => exact Nat.le_of_eq h.next_eq.symm
  | trans h _ ih ih' => exact Nat.le_trans (ih he) (ih' (h.tidy he))
  | visit hs h => exact (h.succeeds (he.focusOn hs)).next_le
  | settle h => exact Nat.le_of_eq h.next_eq.symm

theorem Develops.retraces (h : e.Develops I twins False e') (he : e.Tidy) (hone : e'.nextStateId ≤ 1)
    (hled : e.Retraces p k) : ∃ k' ≥ k, e'.Retraces p k' := by
  induction h generalizing k with
  | alike h =>
    refine ⟨k, Nat.le_refl k, h.replayPath_eq.trans hled.replayPath_eq, h.seeds hled.seeds,
      fun id s hs ↦ hled.states id s (h.states_eq ▸ hs), fun c hc ↦ ?_⟩
    rw [h.states_eq, h.removed_eq]
    exact hled.cases c (h.cases_eq ▸ hc)
  | trans h h' ih ih' =>
    obtain ⟨k', hk', he'⟩ := ih he (Nat.le_trans (h'.next_le (h.tidy he)) hone) hled
    obtain ⟨k'', hk'', he''⟩ := ih' (h.tidy he) hone he'
    exact ⟨k'', Nat.le_trans hk' hk'', he''⟩
  | @visit e id s g hs h =>
    have htidy := he.focusOn hs
    have hname := (he.named id s hs).1
    have hsucc := h.succeeds htidy
    obtain ⟨k', hk', hg⟩ := h.retraces htidy hone ⟨hled.replayPath_eq, hled.seeds, hled.states id s hs, fun c hc ↦
      ⟨(hled.cases c hc).1, fun hgoing ↦ hgoing (hname.symm ▸ (hled.cases c hc).2 id (by simp [hs]))⟩⟩
    exact ⟨k', hk', .of_focus hg (hsucc.tidy.alone hone) (hsucc.id_eq.trans hname)⟩
  | settle h =>
    refine ⟨k, Nat.le_refl k, h.steady.replayPath_eq.trans hled.replayPath_eq, h.steady.seeds hled.seeds,
      fun id s hs ↦ ?_, fun c hc ↦ ⟨(hled.cases c (h.cases_eq ▸ hc)).1, fun id hs ↦ ?_⟩⟩
    · rw [h.states_eq] at hs
      split at hs
      · cases hs
      · exact hled.states id s hs
    · rw [h.states_eq] at hs
      split at hs
      · exact absurd rfl hs
      · exact absurd ((hled.cases c (h.cases_eq ▸ hc)).2 id hs) ‹_›

/-- A machine that was set up to replay `p`, without seeds, or that comes out of such a one after any number
of commands, in none of which the path was found not to fit. -/
inductive Retracing (I : Inputs) (p : List Bool) : Executor σ → Prop
  | prepared {e : Executor σ} (h : Prepared I e) (hpath : e.replayPath = some p) (hseeds : e.seeds.isEmpty) :
      Retracing I p e
  | perform {e e' : Executor σ} (h : Retracing I p e) (c : Command) {r : Except PathError Unit}
      (he' : c.outcome.run e = .ok (r, e')) (hr : ¬Exec.Strayed r) : Retracing I p e'

theorem Retracing.replays (h : Retracing I p e) : Replays I p e := by
  induction h with
  | prepared h hpath hseeds => exact .prepared h hpath hseeds
  | perform _ c he' _ ih =>
    refine .perform ih c ?_
    rw [c.perform_eq]
    exact bind_eq_ok.2 ⟨_, he', rfl⟩

theorem Retracing.retraces (h : Retracing I p e) (hone : e.nextStateId ≤ 1) : ∃ k, e.Retraces p k := by
  induction h with
  | prepared h hpath hseeds =>
    have hfresh := h.fresh
    refine ⟨0, hpath, hseeds, fun id s hs ↦ (hfresh.states id s hs).2.2, fun c hc ↦ ?_⟩
    simp [hfresh.cases_eq] at hc
  | @perform e e' h c r he' hr ih =>
    have hfollowing := h.replays.following
    have houtcome : Ends (fun _ ↦ True) (c.outcome.run e) fun q ↦
        e.Develops I True (Exec.Strayed q.1) q.2 ∧ q.2.removed = [] :=
      ends_outcome c hfollowing.sound hfollowing.tidy hfollowing.removed_eq (fun _ ↦ trivial) fun h ↦ absurd trivial h
    have hdevelops := (houtcome.of_eq he').1.mono hr
    obtain ⟨k, hled⟩ := ih (Nat.le_trans (hdevelops.next_le hfollowing.tidy) hone)
    obtain ⟨k', -, hled'⟩ := hdevelops.retraces hfollowing.tidy hone hled
    exact ⟨k', hled'⟩

/-- As long as no state is divided, a replay that fits goes just its path: the path of a live state is the
sides taken so far, and that of a test case all that were ever taken. -/
theorem path_eq_of_retracing (h : Retracing I p e) (hone : e.nextStateId = 1) : ∃ k, e.replayPath = some (p.drop k) ∧
    (∀ (id : StateId) (s : State), e.states[id]? = some s → s.path = p.take k) ∧
      ∀ c ∈ e.cases, c.path = p.take k ∧ ∀ id : StateId, e.states[id]? = none := by
  obtain ⟨k, hled⟩ := h.retraces (Nat.le_of_eq hone)
  refine ⟨k, hled.replayPath_eq, hled.states, fun c hc ↦ ⟨(hled.cases c hc).1, fun id ↦ ?_⟩⟩
  by_contra hne
  have hmem := (hled.cases c hc).2 id hne
  simp [h.replays.following.removed_eq] at hmem

/-- The side for odd inputs is taken, and then there is none left. -/
theorem exists_retracing_odd : ∃ (e : Executor Unit) (s : State), Retracing .all [false] e ∧ e.nextStateId = 1 ∧
    e.states[0]? = some s ∧ s.path = [false] := by
  have hrun : (do
      let e ← start testing {} { backend := .sampling samples, state := () } .never
      let e ← e.withArguments [even]
      let (r, e') ← (Command.stepState 0).outcome.run { e with
        searcher := {}, host := {}, replayPath := some [false], replayInputs := none }
      return (e.seeds.isEmpty, r.toBool, e'.nextStateId, (e'.states[0]?).map (·.path)) :
        Checked (Bool × Bool × Nat × Option (List Bool))) = .ok (true, true, 1, some [false]) := by
    decide +kernel
  obtain ⟨e₀, hstart, hrun⟩ := bind_eq_ok.1 hrun
  obtain ⟨e, harguments, hrun⟩ := bind_eq_ok.1 hrun
  obtain ⟨⟨r, e'⟩, hstep, hrun⟩ := bind_eq_ok.1 hrun
  simp only [pure_eq_ok, Prod.mk.injEq, Option.map_eq_some_iff] at hrun
  obtain ⟨hseeds, hok, hone, s, hs, hpath⟩ := hrun
  have hprepared := prepared_testing hstart harguments
  have hfits : ¬Exec.Strayed r := by
    rintro ⟨_, rfl, -⟩
    cases hok
  exact ⟨e', s, .perform (.prepared (.settings hprepared {} {} e.nans (some [false]) none) rfl hseeds) (.stepState 0)
    hstep hfits, hone, hs, hpath⟩

/-- A replay takes the sides of its path in their order: what is left of it is what follows the sides taken
so far, and the path of every live state and of every test case is made of these. -/
theorem sublist_of_replays (h : Replays I p e) : ∃ k, e.replayPath = some (p.drop k) ∧
    (∀ (id : StateId) (s : State), e.states[id]? = some s → s.path.Sublist (p.take k)) ∧
      ∀ c ∈ e.cases, c.path.Sublist (p.take k) := by
  obtain ⟨k, hled⟩ := h.following.led
  exact ⟨k, hled.replayPath_eq, hled.states, hled.cases⟩

theorem sublist_of_replays_odd : ∃ (e : Executor Unit) (s : State), Replays .all [false] e ∧
    e.states[0]? = some s ∧ s.path = [false] ∧ ∃ k, e.replayPath = some ([false].drop k) ∧
      (∀ (id : StateId) (s : State), e.states[id]? = some s → s.path.Sublist ([false].take k)) ∧
        ∀ c ∈ e.cases, c.path.Sublist ([false].take k) := by
  obtain ⟨e, s, h, -, hs, hpath⟩ := exists_retracing_odd
  exact ⟨e, s, h.replays, hs, hpath, sublist_of_replays h.replays⟩

end Executor

end Symex
