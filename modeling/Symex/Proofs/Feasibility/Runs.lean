import Symex.Executor.Run
import Symex.Proofs.Feasibility.Instructions
import Symex.Proofs.Forks

namespace Symex

open Checked

variable {σ α β : Type} {I : Inputs} {T : Trust}

namespace Executor

/-! ## The start -/

theorem safe_globalContents (g : Global) (object : MemoryObject) :
    Safe (globalContents g object) ObjectState.WellFormed := by
  have hend : ∀ {contents : ObjectState}, contents.WellFormed →
      ObjectState.WellFormed { contents with readOnly := g.readOnly } := fun h ↦ ⟨h.table, h.updates⟩
  unfold globalContents
  split
  · exact ends_bind (ObjectState.safe_zeroed object) fun _ h ↦ ends_pure (hend h)
  · refine ends_bind (safe_demand (by decide)) fun _ _ ↦ ?_
    exact ends_bind (ObjectState.safe_withBytes object _) fun _ h ↦ ends_pure (hend h)

theorem safe_bindGlobals (address : Nat) (globals : List (Global × GlobalId)) (allocator : Allocator)
    {memory : AddressSpace} (hm : memory.WellFormed) :
    Safe (bindGlobals address globals allocator memory) fun p ↦ p.2.2.WellFormed := by
  induction globals generalizing address allocator memory with
  | nil => exact ends_pure hm
  | cons g rest ih =>
    refine ends_bind (safe_globalContents g.1 _) fun contents hc ↦ ?_
    refine ends_bind (hm.safe_bind hc) fun memory hm ↦ ?_
    refine ends_bind (Bits.safe_addChecked _ _) fun padded _ ↦ ?_
    refine ends_bind (Bits.safe_addChecked _ _) fun address _ ↦ ?_
    exact ends_bind (ih address _ hm) fun _ hm ↦ ends_pure hm

theorem safe_constantValue (globals : List MemoryObject) (c : Constant) :
    Safe (constantValue globals c) Expr.WellFormed := by
  cases c with
  | int value width => exact (Expr.safe_constant value width).mono fun _ h ↦ h.1
  | globalAddress g offset =>
    exact ends_bind (P := fun _ ↦ True) (safe_ofOption fun _ _ ↦ trivial) fun _ _ ↦
      ends_pure (Expr.pointer_wellFormed _)
  | functionAddress f => exact ends_pure (Expr.pointer_wellFormed _)
  | null => exact ends_pure (Expr.pointer_wellFormed _)

theorem safe_writeArguments {arguments : List Expr} {s : State}
    (harguments : ∀ e ∈ arguments, e.WellFormed) (hs : s.Sound T) :
    Safe (writeArguments arguments s) (State.Sound T) := by
  refine ends_foldlM hs ?_
  rintro ⟨argument, i⟩ hmem s hs
  exact hs.safe_write i (harguments argument (List.fst_mem_of_mem_zipIdx hmem))

theorem safe_start (program : Program) (config : Config) {solver : Solver σ} (watchdog : Watchdog)
    (hexact : T.right → solver.backend.Exact T.toInputs True) :
    Safe (start program config solver watchdog) (Sound T) := by
  refine ends_bind (program.safe_function _) fun entry _ ↦ ?_
  have hroot := State.sound_start T 0 program.entry entry.registers
  refine ends_bind (safe_bindGlobals _ _ _ hroot.memory) fun p hm ↦ ?_
  refine ends_bind (ends_mapM_array fun c _ ↦ safe_constantValue _ c) fun constants hconstants ↦ ?_
  refine ends_bind (safe_writeArguments (T := T) ?_ ?_) fun root hroot ↦ ends_pure ?_
  · intro e he
    rw [List.eq_of_mem_replicate he]
    exact Expr.pointer_wellFormed 0
  · exact ⟨hroot.valid, hroot.satisfiable, hroot.threads, hm⟩
  · refine ⟨hexact, hconstants, fun id s hs ↦ ?_⟩
    have hs : (Std.TreeMap.ofList [((0 : StateId), root)])[id]? = some s := hs
    rw [Std.TreeMap.ofList_singleton, Std.TreeMap.getElem?_insert] at hs
    split at hs
    · exact Option.some.inj hs ▸ hroot
    · simp at hs

theorem safe_withArguments {e : Executor σ} {arguments : List Expr} (he : e.Sound T)
    (harguments : ∀ a ∈ arguments, a.WellFormed) : Safe (e.withArguments arguments) (Sound T) := by
  refine ends_bind (e.program.safe_function _) fun entry _ ↦ ?_
  split
  · exact ends_pure he
  · rename_i root hroot
    refine ends_bind (safe_writeArguments (fun a ha ↦ harguments a (List.mem_of_mem_take ha))
      (he.states 0 root hroot)) fun root hroot ↦ ends_pure (he.insert 0 hroot)

theorem Sound.withSeeds {e : Executor σ} (he : e.Sound T) (seeds : List (List TestInput)) :
    (e.withSeeds seeds).Sound T := by
  unfold Executor.withSeeds
  split
  · exact he
  · exact ⟨he.exact, he.constants, he.states⟩

/-! ## Work on the machine -/

/-- The work keeps the machine sound and runs into no contradiction unless answers may be wrong. -/
def Keeps (T : Trust) (x : Session σ α) : Prop :=
  ∀ e, e.Sound T → Ends T.Bears (x.run e) fun p ↦ p.2.Sound T

variable {x : Session σ α} {k : α → Session σ β} {e : Executor σ}

theorem keeps_pure (a : α) : Keeps T (pure a : Session σ α) := fun _ he ↦ ends_pure he

theorem keeps_bind (hx : Keeps T x) (hk : ∀ a, Keeps T (k a)) : Keeps T (x >>= k) := fun e he ↦
  ends_bind (hx e he) fun p hp ↦ hk p.1 p.2 hp

theorem keeps_get_bind {k : Executor σ → Session σ α} (hk : ∀ e, e.Sound T → Keeps T (k e)) :
    Keeps T (get >>= k) := fun e he ↦ hk e he e he

theorem keeps_set (he : e.Sound T) : Keeps T (set e : Session σ PUnit) := fun _ _ ↦ ends_pure he

theorem keeps_lift_bind {c : Checked α} {P : α → Prop} (hc : Ends T.Bears c P)
    (hk : ∀ a, P a → Keeps T (k a)) : Keeps T (liftM c >>= k) := fun _ he ↦
  ends_bind (P := fun p : α × Executor σ ↦ P p.1 ∧ p.2.Sound T)
    (ends_bind hc fun _ ha ↦ ends_pure ⟨ha, he⟩) fun p hp ↦ hk p.1 hp.1 p.2 hp.2

theorem keeps_throw {fault : Fault} (h : fault ≠ .infeasible) : Keeps T (throw fault : Session σ α) :=
  fun _ _ ↦ ends_throw fun _ ↦ h

theorem keeps_modify {f : Executor σ → Executor σ} (hsolver : ∀ e, (f e).solver = e.solver)
    (hconstants : ∀ e, (f e).constants = e.constants) (hstates : ∀ e, (f e).states = e.states) :
    Keeps T (modify f : Session σ PUnit) := fun e he ↦
  ends_pure ⟨hsolver e ▸ he.exact, hconstants e ▸ he.constants, hstates e ▸ he.states⟩

theorem keeps_forIn {γ : Type} {f : γ → PUnit → Session σ (ForInStep PUnit)} (l : List γ)
    (hf : ∀ x u, Keeps T (f x u)) : Keeps T (forIn l ⟨⟩ f : Session σ PUnit) := by
  induction l with
  | nil => exact keeps_pure _
  | cons x l ih =>
    rw [List.forIn_cons]
    refine keeps_bind (hf x _) fun r ↦ ?_
    cases r with
    | done _ => exact keeps_pure _
    | yield _ => exact ih

theorem keeps_visit (id : StateId) {work : Exec σ α} (hwork : work.Keeps T fun _ ↦ True) :
    Keeps T (visit id work) := by
  refine keeps_get_bind fun e he ↦ ?_
  split
  · exact keeps_pure _
  · rename_i s hs
    have hend := (hwork ⟨{ e with states := e.states.erase id }, s⟩
      ⟨he.erase id, he.states id s hs⟩).run
    exact keeps_lift_bind hend fun p hp ↦
      keeps_bind (keeps_set (hp.1.executor.insert id hp.1.state)) fun _ ↦ keeps_pure _

theorem Sound.drop (he : e.Sound T) (id : StateId) : (e.drop id).Sound T :=
  ⟨he.exact, he.constants, (he.erase id).states⟩

theorem keeps_update (current : Option StateId) : Keeps T (update current : Session σ _) := by
  refine keeps_get_bind fun e he ↦ ?_
  have hdrop : (e.removed.foldl Executor.drop e).Sound T := by
    generalize e.removed = removed
    induction removed generalizing e with
    | nil => exact he
    | cons id rest ih => exact ih _ (he.drop id)
  exact keeps_bind (keeps_set ⟨hdrop.exact, hdrop.constants, hdrop.states⟩) fun _ ↦ keeps_pure _

theorem keeps_stepState (id : StateId) : Keeps T (stepState id : Session σ _) := by
  refine keeps_bind (keeps_visit id Exec.keeps_step) fun o ↦ ?_
  cases o with
  | none => exact keeps_throw (by decide)
  | some result => exact keeps_bind (keeps_update _) fun _ ↦ keeps_pure _

theorem keeps_step : Keeps T (step : Session σ _) := by
  refine keeps_bind (keeps_update none) fun _ ↦ keeps_get_bind fun e he ↦ ?_
  refine keeps_bind (keeps_modify (fun _ ↦ rfl) (fun _ ↦ rfl) fun _ ↦ rfl) fun _ ↦ ?_
  split
  · exact keeps_pure _
  · exact keeps_bind (keeps_stepState _) fun _ ↦ keeps_pure _

theorem keeps_giveUp (ids : List StateId) (reason : String) :
    Keeps T (giveUp ids reason : Session σ Unit) :=
  keeps_bind (keeps_forIn ids fun id _ ↦ keeps_bind (keeps_visit id (Exec.keeps_terminateEarly reason))
    fun _ ↦ keeps_pure _) fun _ ↦ keeps_bind (keeps_update none) fun _ ↦ keeps_pure _

theorem keeps_giveUpAll (reason : String) : Keeps T (giveUpAll reason : Session σ Unit) :=
  keeps_get_bind fun _ _ ↦ keeps_giveUp _ reason

theorem keeps_abort (error : PathError) : Keeps T (abort error : Session σ _) :=
  keeps_bind (keeps_giveUpAll _) fun _ ↦
    keeps_bind (keeps_modify (fun _ ↦ rfl) (fun _ ↦ rfl) fun _ ↦ rfl) fun _ ↦ keeps_pure _

theorem keeps_halt : Keeps T (halt : Session σ _) :=
  keeps_bind (keeps_giveUpAll _) fun _ ↦ keeps_get_bind fun _ _ ↦ keeps_abort _

theorem keeps_checkMemory : Keeps T (checkMemory : Session σ Unit) := by
  refine keeps_get_bind fun e he ↦ ?_
  split
  · exact keeps_pure _
  · refine keeps_bind (keeps_modify (fun _ ↦ rfl) (fun _ ↦ rfl) fun _ ↦ rfl) fun _ ↦ ?_
    dsimp only
    split
    · exact keeps_pure _
    · exact keeps_bind (keeps_modify (fun _ ↦ rfl) (fun _ ↦ rfl) fun _ ↦ rfl) fun _ ↦ keeps_giveUp _ _

theorem keeps_stops (counter : Nat) : Keeps T (stops counter : Session σ Bool) := by
  refine keeps_get_bind fun e he ↦ ?_
  dsimp only
  split
  · exact keeps_pure _
  · exact keeps_bind (keeps_modify (fun _ ↦ rfl) (fun _ ↦ rfl) fun _ ↦ rfl) fun _ ↦ keeps_pure _

/-! ## Runs -/

theorem keeps_followSeeds (fuel counter : Nat) (cursor : Option StateId) :
    Keeps T (followSeeds fuel counter cursor : Session σ _) := by
  have hfinish : Keeps T (followSeeds.finish : Session σ _) :=
    keeps_bind (keeps_modify (fun _ ↦ rfl) (fun _ ↦ rfl) fun _ ↦ rfl) fun _ ↦ keeps_pure _
  induction fuel generalizing counter cursor with
  | zero => exact keeps_throw (by decide)
  | succ fuel ih =>
    refine keeps_get_bind fun e he ↦ ?_
    split
    · exact hfinish
    · refine keeps_bind (keeps_stops counter) fun stopped ↦ ?_
      split
      · exact hfinish
      · split
        · exact hfinish
        · refine keeps_bind (keeps_stepState _) fun r ↦ ?_
          cases r with
          | error error => exact keeps_pure _
          | ok report => exact ih _ _

theorem keeps_step_explore {fuel counter : Nat} (h : Keeps T (explore fuel counter : Session σ _)) :
    Keeps T (do
      match ← step with
      | .error error => return .error (← abort error)
      | .ok _ => explore fuel counter : Session σ (Except PathError Unit)) := by
  refine keeps_bind keeps_step fun r ↦ ?_
  cases r with
  | error error => exact keeps_bind (keeps_abort error) fun _ ↦ keeps_pure _
  | ok report => exact h

theorem keeps_explore (fuel counter : Nat) : Keeps T (explore fuel counter : Session σ _) := by
  induction fuel generalizing counter with
  | zero => exact keeps_throw (by decide)
  | succ fuel ih =>
    have hstep := keeps_step_explore (ih (counter + 1))
    refine keeps_get_bind fun e he ↦ ?_
    split
    · exact keeps_pure _
    · refine keeps_bind (keeps_stops counter) fun stopped ↦ ?_
      split
      · exact keeps_bind keeps_halt fun _ ↦ keeps_pure _
      · dsimp only
        split
        · exact keeps_bind keeps_checkMemory fun _ ↦ hstep
        · exact hstep

theorem keeps_run : Keeps T (run : Session σ _) := by
  refine keeps_bind (keeps_update none) fun _ ↦ keeps_get_bind fun e he ↦ ?_
  dsimp only
  split
  · exact keeps_explore _ _
  · refine keeps_bind (keeps_followSeeds _ _ _) fun r ↦ ?_
    split
    · exact keeps_bind (keeps_abort _) fun _ ↦ keeps_pure _
    · refine keeps_bind (keeps_stops 0) fun stopped ↦ ?_
      split
      · exact keeps_bind keeps_halt fun _ ↦ keeps_pure _
      · refine keeps_get_bind fun e _ ↦ ?_
        split
        · exact keeps_bind (keeps_giveUpAll _) fun _ ↦ keeps_pure _
        · exact keeps_explore _ _

/-- A machine that was set up and not run yet: with an exact backend, and whatever arguments, seeds,
searcher, host and records to replay. -/
inductive Prepared (I : Inputs) : Executor σ → Prop
  | start {program : Program} {config : Config} {solver : Solver σ} {watchdog : Watchdog}
      {e : Executor σ} (hexact : solver.backend.Exact I True)
      (he : start program config solver watchdog = .ok e) : Prepared I e
  | arguments {e e' : Executor σ} {arguments : List Expr} (h : Prepared I e)
      (harguments : ∀ a ∈ arguments, a.WellFormed) (he' : e.withArguments arguments = .ok e') :
      Prepared I e'
  | seeds {e : Executor σ} (h : Prepared I e) (seeds : List (List TestInput)) :
      Prepared I (e.withSeeds seeds)
  | settings {e : Executor σ} (h : Prepared I e) (searcher : Searcher) (host : Dispatcher)
      (nans : Nat → Ieee.Format → Bool × Nat) (replayPath : Option (List Bool))
      (replayInputs : Option (List TestInput)) :
      Prepared I { e with searcher, host, nans, replayPath, replayInputs }

/-- What runs are made of, and runs themselves. -/
inductive Command where
  | update (current : Option StateId)
  | step
  | stepState (id : StateId)
  | poll (counter : Nat)
  | checkMemory
  | giveUp (ids : List StateId) (reason : String)
  | halt
  | run

def Command.perform : Command → Session σ Unit
  | update current => do let _ ← Executor.update current
  | step => do let _ ← Executor.step
  | stepState id => do let _ ← Executor.stepState id
  | poll counter => do let _ ← stops counter
  | checkMemory => Executor.checkMemory
  | giveUp ids reason => Executor.giveUp ids reason
  | halt => do let _ ← Executor.halt
  | run => do let _ ← Executor.run

/-- What a command comes to: an error is one that ends the run. -/
def Command.outcome : Command → Session σ (Except PathError Unit)
  | step => do return (← Executor.step).map fun _ ↦ ()
  | stepState id => do return (← Executor.stepState id).map fun _ ↦ ()
  | run => Executor.run
  | c => do
    c.perform
    return .ok ()

/-- A machine that was set up, or that comes out of such a one after any number of commands. -/
inductive Reached (I : Inputs) : Executor σ → Prop
  | prepared {e : Executor σ} (h : Prepared I e) : Reached I e
  | perform {e e' : Executor σ} (h : Reached I e) (c : Command) (he' : c.perform.run e = .ok ((), e')) :
      Reached I e'

theorem Prepared.sound (h : Prepared I e) : e.Sound I := by
  induction h with
  | start hexact he => exact (safe_start _ _ _ fun _ ↦ hexact).of_eq he
  | arguments _ harguments he' ih => exact (safe_withArguments ih harguments).of_eq he'
  | seeds _ seeds ih => exact ih.withSeeds seeds
  | settings _ _ _ _ _ _ ih => exact ⟨ih.exact, ih.constants, ih.states⟩

theorem keeps_perform (c : Command) : Keeps T (c.perform : Session σ Unit) := by
  cases c with
  | update current => exact keeps_bind (keeps_update current) fun _ ↦ keeps_pure _
  | step => exact keeps_bind keeps_step fun _ ↦ keeps_pure _
  | stepState id => exact keeps_bind (keeps_stepState id) fun _ ↦ keeps_pure _
  | poll counter => exact keeps_bind (keeps_stops counter) fun _ ↦ keeps_pure _
  | checkMemory => exact keeps_checkMemory
  | giveUp ids reason => exact keeps_giveUp ids reason
  | halt => exact keeps_bind keeps_halt fun _ ↦ keeps_pure _
  | run => exact keeps_bind keeps_run fun _ ↦ keeps_pure _

theorem Reached.sound (h : Reached I e) : e.Sound I := by
  induction h with
  | prepared h => exact h.sound
  | perform _ c he' ih => exact (keeps_perform c _ ih).of_eq he'

/-- Whatever a backend that is right where it answers fails to answer, the constraints of all live states
have a solution at any time, and no constraint that is added contradicts them. -/
theorem satisfiable_of_reached (h : Reached I e) :
    (∀ (id : StateId) (s : State), e.states[id]? = some s → I.Satisfiable s.constraints) ∧
      ∀ c : Command, c.perform.run e ≠ .error .infeasible :=
  ⟨fun id s hs ↦ (h.sound.states id s hs).satisfiable trivial, fun c ↦
    ((keeps_perform c e h.sound).weaken fun _ hf ↦ hf trivial).ne_error⟩

def testing : Program where
  functions := #[{
    name := "main", parameters := 1, variadic := false, registers := 1
    body := .defined #[#[.condBr (.register 0) 1 2], #[.ret none], #[.ret none]] }]
  globals := #[]
  constants := #[]
  entry := 0

def even : Expr := .compare .eq (.const 0 1) Exec.lowBit

def samples : List Assignment := [⟨true, {}⟩, Assignment.bind ⟨true, {}⟩ "x" ⟨#[1]⟩]

theorem prepared_testing {e e' : Executor Unit}
    (hstart : start testing {} { backend := .sampling samples, state := () } .never = .ok e)
    (harguments : e.withArguments [even] = .ok e') : Prepared .all e' := by
  have hpossible : ∀ a ∈ samples, Inputs.all.possible a := by simp [samples, Inputs.all, Assignment.bind]
  have heven : ∀ a ∈ [even], a.WellFormed := by
    simp [even, Exec.lowBit, Expr.WellFormed, Updates.WellFormed]
  exact .arguments (.start (Backend.exact_sampling hpossible) hstart) heven harguments

/-- After the first step of such a program there are two states with a constraint each. -/
theorem satisfiable_of_reached_even : ∃ e : Executor Unit, Reached .all e ∧
    (e.states.toList.map (·.2.constraints.toList.length)) = [1, 1] ∧
    (∀ (id : StateId) (s : State), e.states[id]? = some s → Inputs.all.Satisfiable s.constraints) ∧
      ∀ c : Command, c.perform.run e ≠ .error .infeasible := by
  have hrun : (do
      let e ← start testing {} { backend := .sampling samples, state := () } .never
      let e ← e.withArguments [even]
      let ((), e) ← (Command.stepState 0).perform.run e
      return e.states.toList.map (·.2.constraints.toList.length) : Checked (List Nat)) = .ok [1, 1] := by
    decide +kernel
  obtain ⟨e₀, hstart, hrun⟩ := bind_eq_ok.1 hrun
  obtain ⟨e, harguments, hrun⟩ := bind_eq_ok.1 hrun
  obtain ⟨⟨⟨⟩, e'⟩, hstep, hconstraints⟩ := bind_eq_ok.1 hrun
  have hreached : Reached .all e' := .perform (.prepared (prepared_testing hstart harguments)) (.stepState 0) hstep
  exact ⟨e', hreached, pure_eq_ok.1 hconstraints, satisfiable_of_reached hreached⟩

end Executor

end Symex
