import Symex.Proofs.Threads.Schedules

namespace Symex

open Checked

variable {σ α β : Type} {f : Focus σ}

/-- The records of the state agree, and the state goes back to one of the live states of `e`: the same one, if it
was there, and otherwise one that it is a copy of. -/
structure State.Descends (e : Executor σ) (s : State) : Prop where
  waitsAgree : s.WaitsAgree
  exists_later : ∃ (id₀ : StateId) (s₀ : State), e.states[id₀]? = some s₀ ∧
    (s.id < e.nextStateId → s₀.id = s.id) ∧ s₀.Later s

variable {e e' e'' : Executor σ}

theorem State.Descends.advance {s s' : State} (h : s.Descends e) (hs : s.Advances s') : s'.Descends e := by
  obtain ⟨id₀, s₀, hs₀, hid, hlater⟩ := h.exists_later
  exact ⟨hs.waitsAgree, id₀, s₀, hs₀, fun hlt ↦ (hid (hs.id_eq ▸ hlt)).trans hs.id_eq.symm, hlater.trans hs.later⟩

instance : Carried e.nextStateId (State.Descends e) where
  same _ _ h hs hid := h.advance (hs.advances h.waitsAgree hid)
  copy s s' h hs hid := by
    obtain ⟨id₀, s₀, hs₀, -, hlater⟩ := h.exists_later
    exact ⟨hs.waitsAgree h.waitsAgree, id₀, s₀, hs₀, fun hlt ↦ (Nat.not_lt_of_le hid hlt).elim,
      hlater.trans hs.later⟩

/-- All states of the machine go back to those of `e`. -/
abbrev Focus.Descends (e : Executor σ) (f : Focus σ) : Prop := f.Everywhere e.nextStateId (State.Descends e)

namespace Exec

theorem maintains_advance {u : State → Checked State}
    (h : ∀ s, s.WaitsAgree → Checked.Ends (fun _ ↦ True) (u s) s.Advances) :
    (updateState u : Exec σ Unit).Maintains e.nextStateId (State.Descends e) fun _ ↦ True :=
  maintains_updateState fun s hs ↦ (h s hs.waitsAgree).mono fun _ hs' ↦ hs.advance hs'

theorem maintains_writeResult (r : Option Register) (value : Expr) :
    (writeResult r value : Exec σ Unit).Maintains e.nextStateId (State.Descends e) fun _ ↦ True := by
  cases r with
  | none => exact maintains_pure trivial
  | some r => exact maintains_advance fun _ hs ↦ hs.write r value

theorem maintains_createThread (function argument : Expr) (destination : Option Register) :
    (createThread function argument destination : Exec σ Unit).Maintains e.nextStateId (State.Descends e)
      fun _ ↦ True := by
  refine maintains_bind (maintains_knownArgument _ _) fun address _ ↦ ?_
  refine maintains_bind maintains_executor fun _ _ ↦ ?_
  dsimp only
  split
  · exact maintains_fail nofun
  · rename_i id _
    refine maintains_bind (R := fun _ ↦ True) (maintains_lift (ends_true_iff.2 fun _ _ ↦ trivial))
      fun callee _ ↦ ?_
    split
    · exact maintains_bind (R := fun _ ↦ False) (maintains_fail nofun) fun _ ↦ False.elim
    · refine maintains_bind maintains_state fun s hs ↦ ?_
      have hstarted := hs.waitsAgree.createThread id callee.registers
      have hset (s' : State) (hs' : s.Advances s') : (do
          let s' ← pure s'
          setState s'
          let value ← Expr.constant (s.createThread id callee.registers).1 64
          writeResult destination value : Exec σ Unit).Maintains e.nextStateId (State.Descends e) fun _ ↦ True :=
        maintains_bind (R := State.Descends e) (maintains_pure (hs.advance hs')) fun _ hs' ↦
          maintains_bind (maintains_setState hs') fun _ _ ↦ maintains_bind (maintains_lift (R := fun _ ↦ True)
            (ends_true_iff.2 fun _ _ ↦ trivial)) fun _ _ ↦ maintains_writeResult _ _
      split
      · split
        · rename_i t ht
          refine maintains_bind (maintains_lift (State.mark_modifyFrame t _)) fun u hu ↦ ?_
          exact hset _ (hstarted.trans (hstarted.waitsAgree.setThread (List.mem_of_find?_eq_some ht) hu))
        · exact hset _ hstarted
      · exact hset _ hstarted

theorem maintains_notify (list : Expr) (all : Bool) :
    (notify list all : Exec σ Unit).Maintains e.nextStateId (State.Descends e) fun _ ↦ True := by
  refine maintains_bind (maintains_knownArgument _ _) fun list _ ↦ ?_
  split
  · exact maintains_advance fun s hs ↦ Checked.ends_pure (hs.notifyAll list)
  · intro f hf
    refine ends_bind_ok rfl ?_
    split
    · rename_i thread hthread
      have hone := hf.state.waitsAgree.notifyOne (List.mem_of_mem_head? hthread)
      exact ends_updateState (Checked.ends_pure ⟨hf.withState (hf.state.advance hone), fun _ _ ↦ trivial, nofun⟩)
    · exact maintains_pure trivial f hf

theorem leaves_knownArgument (argument : Expr) (name : String) :
    (knownArgument argument name : Exec σ Nat).Leaves True := by
  have hunique : (toUnique argument : Exec σ Expr).Leaves True := by
    unfold toUnique
    split
    · exact leaves_pure _
    · refine leaves_bind (leaves_ask _) fun r ↦ ?_
      split
      · exact leaves_pure _
      · refine leaves_bind (leaves_lift _) fun _ ↦ leaves_bind (leaves_ask _) fun r ↦ ?_
        split <;> exact leaves_pure _
  refine leaves_bind hunique fun _ ↦ ?_
  split
  · exact leaves_pure _
  · exact leaves_fail _

theorem ends_schedule_descends (hf : f.Descends e) (yields : Bool) :
    (schedule yields).Ends (fun _ ↦ True) f fun _ g ↦ g.Descends e :=
  ((ends_schedule hf yields).weaken fun _ _ ↦ trivial).mono fun _ _ h ↦ h.1

theorem ends_sleep (hf : f.Descends e) {t : Thread} (ht : f.state.thread? f.state.current = some t)
    (henabled : t.enabled = true) (list : Expr) : (sleep list).Ends (fun _ ↦ True) f fun _ g ↦ g.Descends e := by
  refine ends_bind ((maintains_knownArgument list "thread_sleep" f hf).and (leaves_knownArgument list _ f))
    (fun list g hg ↦ ?_) fun _ _ h ↦ h.1.1
  rw [← hg.2.state_eq trivial] at ht
  obtain ⟨s, hs, hadvances⟩ := hg.1.1.state.waitsAgree.sleep ht henabled list
  refine ends_bind_ok (run_updateState hs) ?_
  exact ends_schedule_descends (hg.1.1.withState (hg.1.1.state.advance hadvances)) false

theorem ends_exitThread (hf : f.Descends e) :
    (exitThread : Exec σ Unit).Ends (fun _ ↦ True) f fun _ g ↦ g.Descends e := by
  refine ends_bind (maintains_advance (fun s hs ↦ hs.terminateThread s.current) f hf) (fun _ g hg ↦ ?_)
    fun _ _ h ↦ h.1
  refine ends_bind_ok rfl ?_
  split
  · exact (maintains_terminateWith _ _ g hg.1).mono fun _ _ h ↦ h.1
  · exact ends_schedule_descends hg.1 false

end Exec

/-- What the executor does to the threads of a state. -/
inductive ThreadOperation where
  | create (function argument : Expr) (destination : Option Register)
  | sleep (list : Expr)
  | notify (list : Expr) (all : Bool)
  | exit
  | schedule (yields : Bool)
  | switch (thread : ThreadId) (preempts : Bool)
  | branch (conditions : List Expr)
  | fork (condition : Expr) (internal : Bool)

namespace ThreadOperation

def run : ThreadOperation → Exec σ Unit
  | create function argument destination => Exec.createThread function argument destination
  | sleep list => Exec.sleep list
  | notify list all => Exec.notify list all
  | exit => Exec.exitThread
  | schedule yields => Exec.schedule yields
  | switch thread preempts => Exec.switchTo thread preempts
  | branch conditions => do let _ ← Exec.branch conditions
  | fork condition internal => do let _ ← Exec.fork condition internal

def Permitted (s : State) : ThreadOperation → Prop
  | sleep _ => ∃ t, s.thread? s.current = some t ∧ t.enabled = true
  | _ => True

theorem ends_run (hf : f.Descends e) {operation : ThreadOperation} (h : operation.Permitted f.state) :
    operation.run.Ends (fun _ ↦ True) f fun _ g ↦ g.Descends e := by
  have hof {x : Exec σ Unit} (hx : x.Maintains e.nextStateId (State.Descends e) fun _ ↦ True) :
      x.Ends (fun _ ↦ True) f fun _ g ↦ g.Descends e := (hx f hf).mono fun _ _ h ↦ h.1
  cases operation with
  | create function argument destination => exact hof (Exec.maintains_createThread function argument destination)
  | sleep list =>
    obtain ⟨t, ht, henabled⟩ := h
    exact Exec.ends_sleep hf ht henabled list
  | notify list all => exact hof (Exec.maintains_notify list all)
  | exit => exact Exec.ends_exitThread hf
  | schedule yields => exact Exec.ends_schedule_descends hf yields
  | switch thread preempts => exact hof (Exec.maintains_switchTo thread preempts)
  | branch conditions =>
    exact hof (Exec.maintains_bind (Exec.maintains_branch conditions) fun _ _ ↦ Exec.maintains_pure trivial)
  | fork condition internal =>
    exact hof (Exec.maintains_bind (Exec.maintains_fork condition internal) fun _ _ ↦ Exec.maintains_pure trivial)

end ThreadOperation

namespace Executor

/-- From `e` on the threads of live states are operated on, one state after another, and the machine takes note of
the states that came up and that ended. -/
inductive Operates (e : Executor σ) : Executor σ → Prop
  | start : Operates e e
  | operate {e' e'' : Executor σ} {id : StateId} {s : State} {operation : ThreadOperation}
      {r : Option (Except PathError Unit)} (h : Operates e e') (hs : e'.states[id]? = some s)
      (hoperation : operation.Permitted s) (hrun : (visit id operation.run).run e' = .ok (r, e'')) : Operates e e''
  | update {e' e'' : Executor σ} {current : Option StateId} {report : StepReport} (h : Operates e e')
      (hrun : (update current).run e' = .ok (report, e'')) : Operates e e''

def WaitsAgree (e : Executor σ) : Prop := ∀ (id : StateId) (s : State), e.states[id]? = some s → s.WaitsAgree

theorem Operates.descends (he : e.WaitsAgree) (h : e.Operates e') :
    e.nextStateId ≤ e'.nextStateId ∧ ∀ (id : StateId) (s : State), e'.states[id]? = some s → s.Descends e := by
  induction h with
  | start => exact ⟨Nat.le_refl _, fun id s hs ↦ ⟨he id s hs, id, s, hs, fun _ ↦ rfl, .refl s⟩⟩
  | @operate e' e'' id s operation r _ hs hoperation hrun ih =>
    have hends : Ends (fun _ ↦ True) ((visit id operation.run).run e') fun p ↦ e.nextStateId ≤ p.2.nextStateId ∧
        ∀ (id : StateId) (s : State), p.2.states[id]? = some s → s.Descends e := by
      refine ends_run_visit (fun _ ↦ ih) fun s' hs' ↦ ?_
      obtain rfl := Option.some.inj (hs.symm.trans hs')
      have hfocus : (e'.focusOn id s).Descends e :=
        Focus.Everywhere.erase (f := ⟨e', s⟩) ⟨ih.2 id s hs, ih.2, ih.1⟩
      exact (ThreadOperation.ends_run hfocus hoperation).mono fun _ f hf ↦
        ⟨hf.next_le, (hf.insert hf.state).states⟩
    exact hends.of_eq hrun
  | @update e' e'' current report _ hrun ih =>
    have hsettles := (ends_update current e').of_eq hrun
    refine ⟨hsettles.next_eq ▸ ih.1, fun id s hs ↦ ih.2 id s ?_⟩
    rw [hsettles.states_eq] at hs
    split at hs
    · cases hs
    · exact hs

/-- Whatever is done to threads, one state after another, a thread of a live state is disabled if and only if it
waits on some list, and that is the one list that it sleeps on. Lists name threads that are there. Ids that were
given out never name another thread later on, in the same state or in copies of it. A schedule ends in a deadlock
if and only if no thread can run. -/
theorem threads_of_operates {e₀ : Executor σ} (he : e₀.WaitsAgree) (h : e₀.Operates e) (h' : e.Operates e')
    {id : StateId} {s : State} (hs : e'.states[id]? = some s) :
    (∀ t ∈ s.threads, (t.enabled = false ↔ ∃ list, t.waitingOn = some list) ∧
      ∀ list, t.waitingOn = some list ↔ t.id ∈ s.sleepers list) ∧
    (∀ thread list list', thread ∈ s.sleepers list → thread ∈ s.sleepers list' → list = list') ∧
    (∀ list, (s.sleepers list).Nodup ∧ ∀ thread ∈ s.sleepers list, ∃ t ∈ s.threads, t.id = thread) ∧
    ((s.threads.map (·.id)).Nodup ∧ (∀ t ∈ s.threads, t.id < s.nextThreadId) ∧
      ∃ (id₀ : StateId) (s₀ : State), e.states[id₀]? = some s₀ ∧ (s.id < e.nextStateId → s₀.id = s.id) ∧
        s₀.nextThreadId ≤ s.nextThreadId ∧
        ∀ t ∈ s.threads, t.id < s₀.nextThreadId → ∃ t₀ ∈ s₀.threads, t₀.id = t.id) ∧
    ∀ (f : Focus σ) (yields : Bool),
      (∃ error g, (Exec.schedule yields).run.run f = .ok (.error error, g) ∧ error.payload = .deadlock) ↔
        ∀ t ∈ f.state.threads, t.enabled = false := by
  have hagree : e.WaitsAgree := fun id s hs ↦ ((h.descends he).2 id s hs).waitsAgree
  obtain ⟨hwaits, id₀, s₀, hs₀, hid, hlater⟩ := (h'.descends hagree).2 id s hs
  refine ⟨fun t ht ↦ ⟨hwaits.disabled_iff t ht, hwaits.waiting_iff t ht⟩, fun _ _ _ ↦ hwaits.eq_of_mem,
    fun list ↦ ⟨(hwaits.sorted list).imp Nat.ne_of_lt, fun thread hmem ↦ ?_⟩,
    ⟨hwaits.ids.imp Nat.ne_of_lt, fun t ht ↦ hwaits.id_lt _ (List.mem_map_of_mem ht), id₀, s₀, hs₀, hid,
      hlater.nextThreadId_le, fun t ht hlt ↦ ?_⟩, fun f yields ↦ ?_⟩
  · exact List.mem_map.1 (hwaits.sleepers list thread hmem)
  · exact List.mem_map.1 (hlater.threadIds t.id (List.mem_map_of_mem ht) hlt)
  · exact Exec.deadlock_iff f yields

theorem waitsAgree_of_start {program : Program} {config : Config} {solver : Solver σ} {watchdog : Watchdog}
    (h : start program config solver watchdog = .ok e) : e.WaitsAgree := by
  have harguments (arguments : List Expr) (s : State) (hs : s.WaitsAgree) :
      Ends (fun _ ↦ True) (writeArguments arguments s) State.WaitsAgree :=
    ends_foldlM hs fun p _ s hs ↦ (hs.write p.2 p.1).mono fun _ h ↦ h.waitsAgree
  obtain ⟨entry, -, h⟩ := bind_eq_ok.1 h
  obtain ⟨⟨globals, allocator, memory⟩, -, h⟩ := bind_eq_ok.1 h
  obtain ⟨constants, -, h⟩ := bind_eq_ok.1 h
  obtain ⟨root, hroot, h⟩ := bind_eq_ok.1 h
  obtain rfl := pure_eq_ok.1 h
  have hagree : root.WaitsAgree := by
    refine (harguments _ _ ?_).of_eq hroot
    exact State.SameWaits.waitsAgree (s := .start 0 program.entry entry.registers) ⟨rfl, rfl, rfl⟩
      (State.waitsAgree_start _ _ _)
  intro id s hs
  rw [Std.TreeMap.ofList_singleton, Focus.getElem?_insert_state] at hs
  split at hs
  · exact Option.some.inj hs ▸ hagree
  · simp at hs

/-- A program whose first function starts threads that run the second one. -/
def threaded : Program where
  functions := #[
    { name := "main", parameters := 0, variadic := false, registers := 1, body := .defined #[#[.ret none]] },
    { name := "thread", parameters := 1, variadic := false, registers := 1, body := .defined #[#[.ret none]] }]
  globals := #[]
  constants := #[]
  entry := 0

/-- The first thread of such a program starts another one and goes to sleep. -/
theorem threads_of_operates_threaded : ∃ (e₀ e : Executor Unit) (s : State), e₀.WaitsAgree ∧ e₀.Operates e ∧
    e.states[0]? = some s ∧ s.current = 1 ∧ s.sleepers 7 = [0] ∧ (∀ list, 0 ∈ s.sleepers list → list = 7) ∧
      ∃ t ∈ s.threads, t.id = 0 ∧ t.enabled = false := by
  let create : ThreadOperation := .create (.const (FunctionId.address 1) 64) (.const 5 64) (some 0)
  let sleep : ThreadOperation := .sleep (.const 7 64)
  have hrun : (do
      let e ← start threaded {} { backend := .silent, state := () } .never
      let q ← (visit 0 create.run).run e
      let q' ← (visit 0 sleep.run).run q.2
      return (e.states[0]?.isSome, q.2.states[0]?.any fun s ↦ (s.thread? s.current).any (·.enabled),
        q'.2.states[0]?.map fun s ↦ (s.current, s.sleepers 7)) :
        Checked (Bool × Bool × Option (ThreadId × List ThreadId))) = .ok (true, true, some (1, [0])) := by
    decide +kernel
  obtain ⟨e₀, hstart, hrun⟩ := bind_eq_ok.1 hrun
  obtain ⟨⟨r₁, e₁⟩, hcreate, hrun⟩ := bind_eq_ok.1 hrun
  obtain ⟨⟨r₂, e⟩, hsleep, hrun⟩ := bind_eq_ok.1 hrun
  have hfacts := pure_eq_ok.1 hrun
  rw [Prod.mk.injEq, Prod.mk.injEq] at hfacts
  obtain ⟨s₀, hs₀⟩ := Option.isSome_iff_exists.1 hfacts.1
  obtain ⟨s₁, hs₁, hcan⟩ := (Option.any_eq_true _ _).1 hfacts.2.1
  obtain ⟨t₁, ht₁, henabled⟩ := (Option.any_eq_true _ _).1 hcan
  obtain ⟨s, hs, hstate⟩ := Option.map_eq_some_iff.1 hfacts.2.2
  obtain ⟨hcurrent, hsleepers⟩ := Prod.mk.inj hstate
  have hagree : e₀.WaitsAgree := waitsAgree_of_start hstart
  have hone : e₀.Operates e₁ := .operate .start hs₀ (show create.Permitted s₀ from trivial) hcreate
  have hawake : sleep.Permitted s₁ := ⟨t₁, ht₁, henabled⟩
  obtain ⟨hthreads, hunique, hnamed, -⟩ := threads_of_operates hagree hone (.operate .start hs₁ hawake hsleep) hs
  have hmem : 0 ∈ s.sleepers 7 := hsleepers ▸ List.mem_cons_self
  obtain ⟨t, ht, hid⟩ := (hnamed 7).2 0 hmem
  refine ⟨e₀, e, s, hagree, .operate hone hs₁ hawake hsleep, hs, hcurrent, hsleepers,
    fun list hlist ↦ hunique 0 list 7 hlist hmem, t, ht, hid, ?_⟩
  exact (hthreads t ht).1.2 ⟨7, ((hthreads t ht).2 7).2 (hid ▸ hmem)⟩

end Executor

end Symex
