import Symex.Proofs.Descent.Sessions

namespace Symex

open Checked

variable {σ : Type} {p : Program} {failed : List StateId} {e e' : Executor σ}

namespace Executor

theorem Seated.insert_root {root root' : State} (he : e.Seated) (hroot : e.states[0]? = some root)
    (hbeside : root.Beside root') : Seated { e with states := e.states.insert 0 root' } := by
  have hid : root.id = 0 := he.named 0 root hroot
  have hknown : ∀ (id : StateId) (s : State), (e.states.insert 0 root')[id]? = some s →
      ∃ s₀, e.states[id]? = some s₀ ∧ s₀.Beside s := by
    intro id s hs
    rw [Focus.getElem?_insert_state] at hs
    split at hs
    · rename_i heq
      exact ⟨root, heq ▸ hroot, Option.some.inj hs ▸ hbeside⟩
    · exact ⟨s, hs, .refl s⟩
  obtain ⟨h, hgrown, hseats⟩ := he.grown
  refine ⟨⟨h, hgrown, fun id s hs ↦ ?_⟩, fun id s hs ↦ ?_, fun id s hs ↦ ?_, fun id s hs ↦ ?_⟩
  · obtain ⟨s₀, hs₀, hs⟩ := hknown id s hs
    exact (hseats id s₀ hs₀).imp hs.sits hs.absorbed
  · obtain ⟨s₀, hs₀, hs⟩ := hknown id s hs
    exact hs.apart (he.apart id s₀ hs₀)
  · obtain ⟨s₀, hs₀, hs⟩ := hknown id s hs
    exact hs.id_eq ▸ he.id_lt id s₀ hs₀
  · obtain ⟨s₀, hs₀, hs⟩ := hknown id s hs
    exact hs.id_eq.trans (he.named id s₀ hs₀)

theorem fair_writeArguments (arguments : List Expr) (s : State) :
    Fair (writeArguments arguments s) s.Beside := s.fair_writes _

theorem seated_of_start {config : Config} {solver : Solver σ} {watchdog : Watchdog}
    (h : start p config solver watchdog = .ok e) : e.Seated ∧ e.removed = [] := by
  obtain ⟨entry, -, h⟩ := bind_eq_ok.1 h
  obtain ⟨⟨globals, allocator, memory⟩, -, h⟩ := bind_eq_ok.1 h
  obtain ⟨constants, -, h⟩ := bind_eq_ok.1 h
  obtain ⟨root, hroot, h⟩ := bind_eq_ok.1 h
  obtain rfl := pure_eq_ok.1 h
  have hbeside := (fair_writeArguments _ _).of_eq hroot
  have hlive : ∀ (id : StateId) (s : State),
      (Std.TreeMap.ofList [(0, root)] : Std.TreeMap StateId State)[id]? = some s → id = 0 ∧ s = root := by
    intro id s hs
    rw [Std.TreeMap.ofList_singleton, Focus.getElem?_insert_state] at hs
    split at hs
    · rename_i heq
      exact ⟨heq.symm, (Option.some.inj hs).symm⟩
    · simp at hs
  have hapart : root.Apart := by
    refine hbeside.apart ⟨?_, ?_⟩
    · exact List.nodup_singleton _
    · intro id hid
      rw [List.mem_singleton.1 hid]
      exact Nat.lt_succ_self _
  refine ⟨⟨⟨_, .start 0, fun id s hs ↦ ?_⟩, fun id s hs ↦ ?_, fun id s hs ↦ ?_, fun id s hs ↦ ?_⟩, rfl⟩
  all_goals obtain ⟨rfl, rfl⟩ := hlive id s hs
  · refine .inl ⟨ProcessTree.root, hbeside.node_eq, ?_⟩
    rw [hbeside.id_eq]
    exact List.mem_singleton_self _
  · exact hapart
  · rw [hbeside.id_eq]
    exact Nat.zero_lt_one
  · exact hbeside.id_eq

theorem Readied.seated (h : Readied p e) : e.Seated ∧ e.removed = [] := by
  induction h with
  | start he => exact seated_of_start he
  | @arguments e e' arguments _ he' ih =>
    obtain ⟨entry, -, he'⟩ := bind_eq_ok.1 he'
    split at he'
    · exact pure_eq_ok.1 he' ▸ ih
    · rename_i root hroot
      obtain ⟨root', hroot', he'⟩ := bind_eq_ok.1 he'
      obtain rfl := pure_eq_ok.1 he'
      exact ⟨ih.1.insert_root hroot ((fair_writeArguments _ _).of_eq hroot'), ih.2⟩
  | seeds _ seeds ih =>
    unfold withSeeds
    split
    · exact ih
    · exact ⟨ih.1.withSettings rfl rfl rfl rfl, ih.2⟩
  | settings _ _ _ _ _ _ ih => exact ⟨ih.1.withSettings rfl rfl rfl rfl, ih.2⟩

theorem Run.seated (h : Run p failed e) : e.Seated ∧ e.removed = [] := by
  induction h with
  | readied h => exact h.seated
  | goes _ c he' ih => exact (seats_outcome c _ ih.1 ih.2).of_eq he'
  | fails _ c he' ih => exact (seats_outcome c _ ih.1 ih.2).of_eq he'

/-- A tree that comes from a first state by allowed operations mirrors the states that are live: links lead both
ways, leaves are those of the live states, and what is left of the tree is above them. No live leaf refuses to be
divided, nor do two of them refuse to be joined. The tree of a run is always such a tree, with all live states at
its live leaves, so no command ends in a refusal. Whatever states end in between, each of them is at a live leaf
or was absorbed by a merge when it is taken from the tree. -/
theorem tree_mirrors_states :
    (∀ (h : ProcessTree.History) (t : ProcessTree), ProcessTree.Grown h t → t.Mirrors h ∧
      (∀ n s left right, (n, s) ∈ h.live → ∃ r, t.split n left right = .ok r) ∧
      ∀ n s m s' state, (n, s) ∈ h.live → (m, s') ∈ h.live → n ≠ m → ∃ r, t.merge n m state = .ok r) ∧
    ∀ (p : Program) (failed : List StateId) (e : Executor σ), Run p failed e →
      (∃ h, ProcessTree.Grown h e.tree ∧ ∀ (id : StateId) (s : State), e.states[id]? = some s →
        ∃ n, s.node = some n ∧ (n, id) ∈ h.live) ∧
      (∀ c : Command, c.outcome.run e ≠ .error .misuse) ∧ ∀ e', e.Proceeds e' → e'.Retires e'.removed := by
  constructor
  · intro h t hgrown
    refine ⟨hgrown.linked.mirrors, fun n s left right hn ↦ ?_, fun n s m s' state hn hm hne ↦ ?_⟩
    · obtain ⟨l, r, t', hsplit, -⟩ := hgrown.exists_split hn left right
      exact ⟨_, hsplit⟩
    · obtain ⟨k, t', hmerge, -⟩ := hgrown.exists_merge hn hm hne state
      exact ⟨_, hmerge⟩
  · intro p failed e hrun
    obtain ⟨he, hr⟩ := hrun.seated
    refine ⟨?_, fun c ↦ (seats_outcome c e he hr).ne_error, fun e' hproceeds ↦ ?_⟩
    · obtain ⟨h, hgrown, -⟩ := he.grown
      refine ⟨h, hgrown, fun id s hs ↦ ?_⟩
      obtain ⟨n, hn, hleaf⟩ := he.sits hr hs
      rw [he.named id s hs] at hleaf
      exact ⟨n, hn, hgrown.linked.leaves_eq ▸ hleaf⟩
    · exact ((hproceeds.seated he hr).retires e'.removed).1

/-- A program that goes on in two states, which meet again. -/
def rejoining : Program where
  functions := #[{
    name := "main", parameters := 0, variadic := false, registers := 1
    body := .defined #[#[.call (.intrinsic .fork) [] none, .br 1], #[.ret none]] }]
  globals := #[]
  constants := #[]
  entry := 0

/-- Where the states of such a program meet they are merged, and one leaf is left below the leaves of both. -/
theorem tree_mirrors_states_rejoining : ∃ (e : Executor Unit) (h : ProcessTree.History) (s : State),
    Run rejoining [] e ∧ ProcessTree.Grown h e.tree ∧ e.tree.Mirrors h ∧ e.states[0]? = some s ∧ e.states.size = 1 ∧
      s.node = some 3 ∧ h.live = [(3, 0)] ∧ (∃ r, e.tree.split 3 0 1 = .ok r) ∧
        (∀ c : Command, c.outcome.run e ≠ .error .misuse) ∧ ∀ e', e.Proceeds e' → e'.Retires e'.removed := by
  have hrun : (do
      let e ← start rejoining { mergeAtJoinPoints := true } { backend := .silent, state := () } .never
      let q ← (Command.stepState 0).outcome.run e
      let q' ← (Command.stepState 0).outcome.run q.2
      let q'' ← (Command.stepState 1).outcome.run q'.2
      return (q.1.isOk && q'.1.isOk && q''.1.isOk, q''.2.states.size, q''.2.states[0]?.bind (·.node),
        q''.2.tree.leaves) : Checked (Bool × Nat × Option NodeId × List (NodeId × StateId))) =
          .ok (true, 1, some 3, [(3, 0)]) := by
    unfold Command.outcome stepState Exec.step Exec.instruction Exec.intrinsic Exec.forkTwice Exec.branch
    simp only [Exec.arms_pair]
    decide +kernel
  obtain ⟨e₀, hstart, hrun⟩ := bind_eq_ok.1 hrun
  obtain ⟨⟨r₁, e₁⟩, hfork, hrun⟩ := bind_eq_ok.1 hrun
  obtain ⟨⟨r₂, e₂⟩, hjump, hrun⟩ := bind_eq_ok.1 hrun
  obtain ⟨⟨r₃, e⟩, hmerge, hrun⟩ := bind_eq_ok.1 hrun
  have hfacts := pure_eq_ok.1 hrun
  simp only [Prod.mk.injEq, Bool.and_eq_true] at hfacts
  obtain ⟨⟨⟨hok₁, hok₂⟩, hok₃⟩, hsize, hstate, hleaves⟩ := hfacts
  obtain ⟨s, hs, hnode⟩ := Option.bind_eq_some_iff.1 hstate
  have hok {r : Except PathError Unit} (h : r.isOk = true) : r = .ok () := by
    cases r with
    | ok _ => rfl
    | error _ => cases h
  obtain rfl := hok hok₁
  obtain rfl := hok hok₂
  obtain rfl := hok hok₃
  have hreached : Run rejoining [] e :=
    .goes (.goes (.goes (.readied (.start hstart)) (.stepState 0) hfork) (.stepState 0) hjump) (.stepState 1) hmerge
  obtain ⟨htrees, hruns⟩ := tree_mirrors_states (σ := Unit)
  obtain ⟨⟨h, hgrown, -⟩, hmisuse, hretires⟩ := hruns rejoining [] e hreached
  obtain ⟨hmirrors, hsplit, -⟩ := htrees h e.tree hgrown
  have hlive : h.live = [(3, 0)] := hmirrors.leaves_eq.symm.trans hleaves
  exact ⟨e, h, s, hreached, hgrown, hmirrors, hs, hsize, hnode, hlive, hsplit 3 0 0 1 (by simp [hlive]), hmisuse,
    hretires⟩

end Executor

end Symex
