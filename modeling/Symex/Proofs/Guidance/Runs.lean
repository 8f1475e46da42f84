import Symex.Proofs.Guidance.Instructions
import Symex.Proofs.Lineage.Ledger
import Symex.Proofs.Sessions

namespace Symex

open Checked

variable {σ : Type} {o : Outset} {L : Likeness} {K : MemoryObject → Prop} {going : Prop} {id : StateId} {s s' : State}

namespace Executor

variable {e e' : Executor σ}

/-! ## Between visits -/

/-- Only live states have seeds, and those lead to them. -/
structure Steered (e : Executor σ) : Prop where
  guided : ∃ o, e.Guided o
  keys : ∀ (id : StateId) (seeds : List Seed), e.seeds[id]? = some seeds → ∃ s, e.states[id]? = some s

theorem Steered.of_aligns (he : e.Steered) (h : e.Aligns e') : e'.Steered where
  guided := he.guided.imp fun _ he ↦ he.of_aligns h
  keys := by
    rw [h.seeds_eq, h.states_eq]
    exact he.keys

theorem Steered.focusOn (he : e.Steered) (hs : e.states[id]? = some s) (hgoing : going → id ∉ e.removed) :
    (e.focusOn id s).Guided ⟨s.like, fun _ ↦ True, e.nextStateId⟩ [] going True := by
  obtain ⟨o, ho⟩ := he.guided
  have hlive := ho.states id s hs
  have hname := hlive.id_eq
  -- seen from here, no state has come up yet
  have hrebased := ho.rebase s.like fun _ ↦ True
  refine ⟨⟨ho.exact, ho.supplies, ho.constants, Nat.le_refl _, fun id' s' hs' ↦ ?_⟩,
    List.forall_mem_singleton.2 ⟨hname.symm ▸ hlive.lt, ?_, hlive.grounded, le_refl _⟩, List.forall_mem_nil _,
    List.nodup_singleton _, fun id' seeds hseeds ↦ ?_, fun hg ↦ ?_, fun _ ↦ hlive.rests⟩
  · rw [Executor.focusOn, Focus.getElem?_erase_state] at hs'
    split at hs'
    · cases hs'
    · have h := hrebased.states id' s' hs'
      exact ⟨h.id_eq, h.lt, h.grounded, h.spans, h.rests⟩
  · change (e.states.erase id)[s.id]? = none
    rw [hname, Focus.getElem?_erase_state, if_pos rfl]
  · obtain ⟨s', hs'⟩ := he.keys id' seeds hseeds
    change id' ∈ [s.id] ∨ ∃ t, (e.states.erase id)[id']? = some t
    rw [hname, List.mem_singleton, Focus.getElem?_erase_state]
    by_cases heq : id = id'
    · exact .inl heq.symm
    · exact .inr ⟨s', by rw [if_neg heq, hs']⟩
  · change s.id ∉ e.removed
    exact hname.symm ▸ hgoing hg

theorem Steered.of_focus {f : Focus σ} (hf : f.Guided o [] going True) (hid : f.state.id = id) :
    Steered { f.executor with states := f.executor.states.insert id f.state } := by
  subst hid
  obtain ⟨hlt, -, hspans⟩ := hf.apart _ List.mem_cons_self
  have hrebased := hf.executor.rebase f.state.like fun _ ↦ True
  refine ⟨⟨_, hrebased.exact, hrebased.supplies, hrebased.constants, hrebased.next_le, fun id s hs ↦ ?_⟩,
    fun id seeds hseeds ↦ ?_⟩
  · rw [Focus.getElem?_insert_state] at hs
    split at hs
    · rename_i heq
      obtain rfl := Option.some.inj hs
      exact ⟨heq, heq ▸ hlt, hspans.grounded.forget, fun hle ↦ absurd (heq ▸ hlt) (Nat.not_lt.2 hle), hf.own trivial⟩
    · have h := hrebased.states id s hs
      exact ⟨h.id_eq, h.lt, h.grounded, h.spans, h.rests⟩
  · dsimp only
    rw [Focus.getElem?_insert_state]
    split
    · exact ⟨_, rfl⟩
    · rename_i hne
      exact (hf.keys id seeds hseeds).resolve_left fun h ↦ hne (List.mem_singleton.1 h).symm

theorem Steered.replace (he : e.Steered) (hs : e.states[id]? = some s) (hs' : s.Steady (fun _ ↦ True) s') :
    Steered { e with states := e.states.insert id s' } := by
  obtain ⟨o, ho⟩ := he.guided
  have hlive := ho.states id s hs
  have hrebased := ho.rebase s.like fun _ ↦ True
  refine ⟨⟨_, hrebased.exact, hrebased.supplies, hrebased.constants, hrebased.next_le, fun id' t ht ↦ ?_⟩,
    fun id' seeds hseeds ↦ ?_⟩
  · rw [Focus.getElem?_insert_state] at ht
    split at ht
    · rename_i heq
      obtain rfl := Option.some.inj ht
      subst heq
      refine ⟨hs'.id_eq.trans hlive.id_eq, hlive.lt, hs'.grounded, fun hle ↦ absurd hlive.lt (Nat.not_lt.2 hle), ?_⟩
      rw [Rests, Leads, hs'.id_eq, hs'.constraints_eq]
      exact hlive.rests
    · have h := hrebased.states id' t ht
      exact ⟨h.id_eq, h.lt, h.grounded, h.spans, h.rests⟩
  · dsimp only
    rw [Focus.getElem?_insert_state]
    split
    · exact ⟨_, rfl⟩
    · exact he.keys id' seeds hseeds

theorem Steered.reseed {seeds : List Seed} (he : e.Steered) (hs : e.states[id]? = some s)
    (hseeds : ∀ seed ∈ seeds, Inputs.all.Solves seed.assignment s.constraints) :
    Steered { e with seeds := e.seeds.insert id seeds } := by
  obtain ⟨o, ho⟩ := he.guided
  refine ⟨⟨o, ho.exact, ho.supplies, ho.constants, ho.next_le, fun id' t ht ↦ ?_⟩, fun id' l hl ↦ ?_⟩
  · have hlive := ho.states id' t ht
    refine ⟨hlive.id_eq, hlive.lt, hlive.grounded, hlive.spans, hlive.rests.imp_right fun hleads l hl ↦ ?_⟩
    dsimp only at hl
    rw [hlive.id_eq, Focus.getElem?_insert_state] at hl
    split at hl
    · rename_i heq
      subst heq
      obtain rfl := Option.some.inj (hs.symm.trans ht)
      exact Option.some.inj hl ▸ hseeds
    · exact hleads l (hlive.id_eq.symm ▸ hl)
  · dsimp only at hl
    rw [Focus.getElem?_insert_state] at hl
    split at hl
    · exact ⟨s, ‹id = id'› ▸ hs⟩
    · exact he.keys id' l hl

/-! ## Commands -/

theorem ends_update_solver (current : Option StateId) (e : Executor σ) :
    Ends (fun _ ↦ True) ((update current).run e) fun p ↦ p.2.solver = e.solver := by
  have hdrop : ∀ (ids : List StateId) (e : Executor σ), (ids.foldl drop e).solver = e.solver := by
    intro ids
    induction ids with
    | nil => exact fun _ ↦ rfl
    | cons id rest ih => exact fun e ↦ ih (e.drop id)
  exact ends_pure (hdrop e.removed e)

theorem Steered.update {current : Option StateId} {report : StepReport} (he : e.Steered)
    (h : e.Updated current report e') (hsolver : e'.solver = e.solver) : e'.Steered := by
  obtain ⟨o, ho⟩ := he.guided
  refine ⟨⟨o, hsolver ▸ ho.exact, hsolver ▸ ho.supplies, h.constants_eq ▸ ho.constants, h.next_eq ▸ ho.next_le,
    fun id s hs ↦ ?_⟩, fun id seeds hseeds ↦ ?_⟩
  · rw [h.states_eq] at hs
    split at hs
    · cases hs
    · rename_i hgoing
      have hlive := ho.states id s hs
      refine ⟨hlive.id_eq, h.next_eq ▸ hlive.lt, hlive.grounded, hlive.spans, .inr fun seeds hseeds ↦ ?_⟩
      rw [h.seeds_eq] at hseeds
      split at hseeds
      · cases hseeds
      · exact hlive.rests.resolve_left (hlive.id_eq ▸ hgoing) seeds hseeds
  · rw [h.seeds_eq] at hseeds
    rw [h.states_eq]
    split at hseeds
    · cases hseeds
    · rw [if_neg ‹_›]
      exact he.keys id seeds hseeds

theorem upholds_steered : Upholds (σ := σ) (fun _ ↦ True) Steered fun e ↦ e.Steered ∧ e.removed = [] where
  among_of_between _ h := h.1
  step e id h := ends_run_visit (fun _ ↦ h.1) fun s hs ↦ by
    obtain ⟨o, ho⟩ := h.1.guided
    refine (Exec.ends_step_guided (h.1.focusOn hs fun _ ↦ by simp [h.2])).mono fun _ f hf ↦ ?_
    obtain ⟨hid, o', hf⟩ := hf
    exact .of_focus hf (hid.trans (ho.states id s hs).id_eq)
  giveUp e id reason he := ends_run_visit (fun _ ↦ he) fun s hs ↦ by
    obtain ⟨o, ho⟩ := he.guided
    have hended := Exec.carries_terminateWith (.early reason) none [] True _ (he.focusOn hs False.elim)
    exact Exec.Ends.mono hended fun _ f hf ↦ .of_focus hf.2 (hf.1.trans (ho.states id s hs).id_eq)
  update e current he := ((ends_update_all current e).and (ends_update_solver current e)).mono fun _ h ↦
    ⟨he.update h.1 h.2, h.1.removed_eq⟩
  settings _ _ _ _ _ _ h := ⟨h.1.of_aligns ⟨rfl, rfl, rfl, rfl, rfl, rfl⟩, h.2⟩
  unseeded e h := by
    obtain ⟨⟨⟨o, ho⟩, hkeys⟩, hremoved⟩ := h
    have hnone (id : StateId) (seeds : List Seed) :
        ({} : Std.TreeMap StateId (List Seed))[id]? ≠ some seeds := by simp
    refine ⟨⟨⟨o, ho.exact, ho.supplies, ho.constants, ho.next_le, fun id s hs ↦ ?_⟩, fun id seeds hseeds ↦ ?_⟩,
      hremoved⟩
    · have h := ho.states id s hs
      exact ⟨h.id_eq, h.lt, h.grounded, h.spans, .inr fun seeds hseeds ↦ absurd hseeds (hnone _ _)⟩
    · exact absurd hseeds (hnone _ _)
  faults := ⟨trivial, trivial⟩

/-! ## The start -/

theorem meets_globalContents (g : Global) (object : MemoryObject) :
    Meets (globalContents g object) fun x ↦ x.Determined L ∧ x.object = object := by
  unfold globalContents
  split
  · exact ends_bind (ObjectState.meets_zeroed object) fun _ h ↦ ends_pure ⟨h.1.of_readOnly _, h.2⟩
  · refine ends_bind (ends_any _) fun _ _ ↦ ?_
    exact ends_bind (ObjectState.meets_withBytes object _) fun _ h ↦ ends_pure ⟨h.1.of_readOnly _, h.2⟩

theorem meets_bindGlobals (address : Nat) (globals : List (Global × GlobalId)) (allocator : Allocator)
    {memory : AddressSpace} (hm : memory.Determined L fun _ ↦ True) :
    Meets (bindGlobals address globals allocator memory) fun p ↦ p.2.2.Determined L fun _ ↦ True := by
  induction globals generalizing address allocator memory with
  | nil => exact ends_pure hm
  | cons g rest ih =>
    refine ends_bind (meets_globalContents (L := L) g.1 _) fun contents hc ↦ ?_
    refine ends_bind (hm.meets_bind hc.1 trivial) fun memory hm ↦ ?_
    refine ends_bind (ends_any _) fun padded _ ↦ ends_bind (ends_any _) fun address _ ↦ ?_
    exact ends_bind (ih address _ hm) fun _ hm ↦ ends_pure hm

theorem meets_constantValue (globals : List MemoryObject) (c : Constant) :
    Meets (constantValue globals c) fun e ↦ e.WellFormed ∧ e.isConst := by
  cases c with
  | int value width =>
    refine ends_true_iff.2 fun e he ↦ ⟨((Expr.safe_constant value width).of_eq he).1, ?_⟩
    obtain ⟨-, rfl⟩ := Expr.constant_eq_ok.1 he
    rfl
  | globalAddress g offset =>
    exact ends_bind (ends_any _) fun _ _ ↦ ends_pure ⟨Expr.pointer_wellFormed _, rfl⟩
  | functionAddress f => exact ends_pure ⟨Expr.pointer_wellFormed _, rfl⟩
  | null => exact ends_pure ⟨Expr.pointer_wellFormed _, rfl⟩

theorem meets_writeArguments {arguments : List Expr} (harguments : ∀ a ∈ arguments, a.WellFormed ∧ a.isConst)
    (hs : s.Grounded K) : Meets (writeArguments arguments s) (s.Steady K) := by
  refine ends_foldlM hs.steady ?_
  rintro ⟨argument, i⟩ hmem s' hs'
  obtain ⟨hwf, hconst⟩ := harguments argument (List.fst_mem_of_mem_zipIdx hmem)
  exact (hs'.grounded.meets_write i (Expr.determined_of_isConst hwf hconst)).mono fun _ h ↦ hs'.trans h

/-- A machine that has made no step: its state has taken on no constraint yet. -/
structure Untried (e : Executor σ) : Prop where
  steered : e.Steered
  removed_eq : e.removed = []
  root : ∃ s, e.states[0]? = some s ∧ ∀ a : Assignment, a.free = true → Inputs.all.Solves a s.constraints

theorem untried_of_start {program : Program} {config : Config} {solver : Solver σ} {watchdog : Watchdog}
    (hexact : solver.backend.Exact Inputs.all True) (hsupplies : solver.backend.Supplies)
    (he : start program config solver watchdog = .ok e) : e.Untried := by
  refine Ends.of_eq (F := fun _ ↦ True) (x := start program config solver watchdog) ?_ he
  refine ends_bind (ends_any _) fun entry _ ↦ ?_
  have hroot := State.grounded_start (K := fun _ ↦ True) 0 program.entry entry.registers
  refine ends_bind (meets_bindGlobals _ _ _ hroot.memory) fun p hm ↦ ?_
  refine ends_bind (ends_mapM_array fun c _ ↦ meets_constantValue _ c) fun constants hconstants ↦ ?_
  have hnull : ∀ a ∈ List.replicate entry.parameters (Expr.pointer 0), a.WellFormed ∧ a.isConst := by
    intro a ha
    rw [List.eq_of_mem_replicate ha]
    exact ⟨Expr.pointer_wellFormed 0, rfl⟩
  have hplaced := ((hroot.withMemory hm).grounded.withNode (some ProcessTree.root))
  refine ends_bind (meets_writeArguments hnull hplaced) fun root hroot ↦ ends_pure ?_
  have hid : root.id = 0 := hroot.id_eq
  have hlive : ∀ (id : StateId) (s : State), (Std.TreeMap.ofList [((0 : StateId), root)])[id]? = some s →
      id = 0 ∧ s = root := by
    intro id s hs
    rw [Std.TreeMap.ofList_singleton, Focus.getElem?_insert_state] at hs
    split at hs
    · exact ⟨Eq.symm ‹_›, (Option.some.inj hs).symm⟩
    · simp at hs
  refine ⟨⟨⟨⟨root.like, fun _ ↦ True, 1⟩, hexact, hsupplies, hconstants, Nat.le_refl _, fun id s hs ↦ ?_⟩,
    fun id seeds hseeds ↦ ?_⟩, rfl, root, ?_, fun a ha ↦ ?_⟩
  · obtain ⟨rfl, rfl⟩ := hlive id s hs
    exact ⟨hid, Nat.zero_lt_one, hroot.grounded, fun hle ↦ absurd hle (Nat.not_succ_le_zero 0),
      .inr fun seeds hseeds ↦ by simp at hseeds⟩
  · simp at hseeds
  · simp
  · rw [hroot.constraints_eq]
    exact ⟨ha, by simp [State.start, ConstraintSet.toList]⟩

theorem Untried.withArguments {arguments : List Expr} (he : e.Untried)
    (harguments : ∀ a ∈ arguments, a.WellFormed ∧ a.isConst) : Meets (e.withArguments arguments) Untried := by
  refine ends_bind (ends_any _) fun entry _ ↦ ?_
  split
  · exact ends_pure he
  · rename_i root hroot
    obtain ⟨root', hroot', hfree⟩ := he.root
    obtain rfl := Option.some.inj (hroot.symm.trans hroot')
    obtain ⟨o, ho⟩ := he.steered.guided
    have hfirst : ∀ a ∈ arguments.take entry.parameters, a.WellFormed ∧ a.isConst := fun a ha ↦
      harguments a (List.mem_of_mem_take ha)
    refine ends_bind (meets_writeArguments hfirst (ho.states 0 root hroot).grounded) fun s hs ↦ ends_pure ?_
    refine ⟨he.steered.replace hroot hs, he.removed_eq, s, ?_, hs.constraints_eq ▸ hfree⟩
    exact (Focus.getElem?_insert_state ..).trans (if_pos rfl)

theorem Untried.withSeeds (he : e.Untried) (seeds : List (List TestInput)) : (e.withSeeds seeds).Untried := by
  unfold Executor.withSeeds
  split
  · exact he
  · obtain ⟨root, hroot, hfree⟩ := he.root
    refine ⟨he.steered.reseed hroot fun seed hseed ↦ ?_, he.removed_eq, root, hroot, hfree⟩
    obtain ⟨unused, -, rfl⟩ := List.mem_map.1 hseed
    exact hfree _ rfl

/-! ## Runs -/

/-- A machine that was set up and not run yet: with a solver that is right where it answers, constants for
arguments, and whatever seeds, searcher, host and records to replay. -/
inductive Primed : Executor σ → Prop
  | start {program : Program} {config : Config} {solver : Solver σ} {watchdog : Watchdog} {e : Executor σ}
      (hexact : solver.backend.Exact Inputs.all True) (hsupplies : solver.backend.Supplies)
      (he : start program config solver watchdog = .ok e) : Primed e
  | arguments {e e' : Executor σ} {arguments : List Expr} (h : Primed e)
      (harguments : ∀ a ∈ arguments, a.WellFormed ∧ a.isConst) (he' : e.withArguments arguments = .ok e') :
      Primed e'
  | seeds {e : Executor σ} (h : Primed e) (seeds : List (List TestInput)) : Primed (e.withSeeds seeds)
  | settings {e : Executor σ} (h : Primed e) (searcher : Searcher) (host : Dispatcher)
      (nans : Nat → Ieee.Format → Bool × Nat) (replayPath : Option (List Bool))
      (replayInputs : Option (List TestInput)) :
      Primed { e with searcher, host, nans, replayPath, replayInputs }

/-- A machine that was set up, or that comes out of such a one after any number of commands. At any time the seeds
may be given up, as they are within a run. -/
inductive Seeded : Executor σ → Prop
  | primed {e : Executor σ} (h : Primed e) : Seeded e
  | perform {e e' : Executor σ} (h : Seeded e) (c : Command) (he' : c.perform.run e = .ok ((), e')) : Seeded e'
  | unseeded {e : Executor σ} (h : Seeded e) : Seeded { e with seeds := {} }

theorem Primed.untried (h : Primed e) : e.Untried := by
  induction h with
  | start hexact hsupplies he => exact untried_of_start hexact hsupplies he
  | arguments _ harguments he' ih => exact (ih.withArguments harguments).of_eq he'
  | seeds _ seeds ih => exact ih.withSeeds seeds
  | settings _ _ _ _ _ _ ih => exact ⟨ih.steered.of_aligns ⟨rfl, rfl, rfl, rfl, rfl, rfl⟩, ih.removed_eq, ih.root⟩

theorem Seeded.steered (h : Seeded e) : e.Steered ∧ e.removed = [] := by
  induction h with
  | primed h => exact ⟨h.untried.steered, h.untried.removed_eq⟩
  | perform _ c he' ih => exact (upholds_steered.upheld_perform c _ ih).of_eq he'
  | unseeded _ ih => exact upholds_steered.unseeded _ ih

/-- Only live states have seeds, and every seed of a state satisfies all of its constraints. -/
theorem satisfies_of_seeded (h : Seeded e) {seeds : List Seed} (hseeds : e.seeds[id]? = some seeds) :
    ∃ s, e.states[id]? = some s ∧ ∀ seed ∈ seeds, ∀ c ∈ s.constraints.toList, seed.satisfies c := by
  obtain ⟨⟨⟨o, ho⟩, hkeys⟩, hremoved⟩ := h.steered
  obtain ⟨s, hs⟩ := hkeys id seeds hseeds
  have hlive := ho.states id s hs
  have hleads := hlive.rests.resolve_left (by simp [hremoved])
  refine ⟨s, hs, fun seed hseed c hc ↦ ?_⟩
  have hsolves := hleads seeds (hlive.id_eq.symm ▸ hseeds) seed hseed
  exact (Seed.satisfies_iff hsolves.possible).2 ((Assignment.holds_iff_val hsolves.possible).1 (hsolves.holds c hc))

/-- A program that tests whether an input of one byte is odd. -/
def parity : Program where
  functions := #[{
    name := "main", parameters := 0, variadic := false, registers := 2
    body := .defined #[#[
      .alloca 1 (.constant 0) 0, .call (.intrinsic (.makeSymbolic "x")) [.register 0, .constant 0] none,
      .load (.register 0) 1 1, .condBr (.register 1) 1 2], #[.ret none], #[.ret none]] }]
  globals := #[]
  constants := #[.int 1 64]
  entry := 0

theorem supplies_sampling (samples : List Assignment) : (Backend.sampling samples).Supplies where
  contents := by rintro _ _ _ _ _ ⟨⟩
  nothing := by rintro _ _ _ _ ⟨⟩

/-- Where such a program is to follow its seeds only, two odd seeds stay with the state, and satisfy what it has
taken on. -/
theorem satisfies_of_seeded_parity : ∃ (e : Executor Unit) (seeds : List Seed) (s : State), Seeded e ∧
    e.seeds[0]? = some seeds ∧ seeds.length = 2 ∧ e.states[0]? = some s ∧ s.constraints.toList.length = 1 ∧
      ∀ seed ∈ seeds, ∀ c ∈ s.constraints.toList, seed.satisfies c := by
  have hrun : (do
      let e ← start parity { onlyReplaySeeds := true } { backend := .sampling samples, state := () } .never
      let e := e.withSeeds [[⟨"x", ⟨#[1]⟩⟩], [⟨"x", ⟨#[3]⟩⟩]]
      let q ← (Command.stepState 0).perform.run e
      let q ← (Command.stepState 0).perform.run q.2
      let q ← (Command.stepState 0).perform.run q.2
      let q ← (Command.stepState 0).perform.run q.2
      return (q.2.seeds[0]?.map List.length, q.2.states[0]?.map (·.constraints.toList.length)) :
        Checked (Option Nat × Option Nat)) = .ok (some 2, some 1) := by
    decide +kernel
  obtain ⟨e, hstart, hrun⟩ := bind_eq_ok.1 hrun
  obtain ⟨⟨⟨⟩, e₁⟩, halloca, hrun⟩ := bind_eq_ok.1 hrun
  obtain ⟨⟨⟨⟩, e₂⟩, hinput, hrun⟩ := bind_eq_ok.1 hrun
  obtain ⟨⟨⟨⟩, e₃⟩, hload, hrun⟩ := bind_eq_ok.1 hrun
  obtain ⟨⟨⟨⟩, e₄⟩, hbranch, hrun⟩ := bind_eq_ok.1 hrun
  simp only [pure_eq_ok, Prod.mk.injEq, Option.map_eq_some_iff] at hrun
  obtain ⟨⟨seeds, hseeds, hlength⟩, s, hs, hconstraints⟩ := hrun
  have hpossible : ∀ a ∈ samples, Inputs.all.possible a := by simp [samples, Inputs.all, Assignment.bind]
  have hprimed : Primed e := .start (Backend.exact_sampling hpossible) (supplies_sampling samples) hstart
  have hseeded : Seeded e₄ :=
    .perform (.perform (.perform (.perform (.primed (hprimed.seeds _)) _ halloca) _ hinput) _ hload) _ hbranch
  obtain ⟨s', hs', hsatisfies⟩ := satisfies_of_seeded hseeded hseeds
  obtain rfl := Option.some.inj (hs.symm.trans hs')
  exact ⟨e₄, seeds, s, hseeded, hseeds, hlength, hs, hconstraints, hsatisfies⟩

end Executor

end Symex
