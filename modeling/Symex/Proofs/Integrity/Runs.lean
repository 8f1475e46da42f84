import Symex.Proofs.Integrity.Starts

namespace Symex

open Checked AddressSpace

variable {σ : Type} {p : Program} {n : Nat}

/-! ## Memory of a state -/

namespace State

def objects (s : State) : List MemoryObject := s.memory.toList.map (·.object)

def frames (s : State) : List Frame := s.threads.flatMap (·.stack)

/-- The objects that are bound lie apart from each other, those on the stack belong to one frame each, and
frames know objects only that are bound. -/
structure MemoryWellFormed (s : State) : Prop where
  apart : s.objects.Pairwise MemoryObject.Apart
  stop_le : ∀ o ∈ s.objects, o.stop ≤ wordLimit
  below_pool : ∀ o ∈ s.objects, o.isGlobal = false → o.stop ≤ s.pool.next
  ids : (s.objects.map (·.id)).Nodup
  bound : ∀ f ∈ s.frames, ∀ o ∈ f.objects, ∃ x, s.memory.find? o = some x ∧ x.object = o
  owned : ∀ o ∈ s.objects, o.isLocal = true → ∃ f, s.frames.filter (o ∈ ·.objects) = [f]

variable {s : State}

theorem map_outline (s : State) : s.shape.objects.map (·.2) = s.objects := by
  rw [objects, AddressSpace.toList_eq, shape, outline, List.map_map, List.map_map]
  rfl

theorem held_shape (s : State) : s.shape.held = s.frames.flatMap (·.objects) := by
  simp only [Shape.held, shape, frames, List.flatMap_map, List.flatMap_assoc, ThreadShape.held,
    Thread.shape, Frame.shape]

theorem exists_outline {o : MemoryObject} (ho : o ∈ s.objects) : ∃ e ∈ s.shape.objects, e.2 = o :=
  List.mem_map.1 (map_outline s ▸ ho)

theorem exists_filter_eq {α β : Type} [DecidableEq β] {l : List α} {f : α → List β} {b : β}
    (h : (l.flatMap f).count b = 1) : ∃ a, l.filter (b ∈ f ·) = [a] := by
  have hle : ∀ l : List α, (l.filter (b ∈ f ·)).length ≤ (l.flatMap f).count b := by
    intro l
    induction l with
    | nil => exact Nat.le_refl 0
    | cons a l ih =>
      rw [List.flatMap_cons, List.count_append, List.filter_cons]
      split
      · rename_i hb
        have := List.count_pos_iff.2 (of_decide_eq_true hb)
        rw [List.length_cons]
        omega
      · exact Nat.le_add_left_of_le ih
  obtain ⟨a, ha, hb⟩ := List.mem_flatMap.1 (List.count_pos_iff.1 (h ▸ Nat.one_pos))
  refine List.length_eq_one_iff.1 (Nat.le_antisymm (h ▸ hle l) (List.length_pos_of_mem (a := a) ?_))
  exact List.mem_filter.2 ⟨ha, decide_eq_true hb⟩

theorem nodup_ids (h : s.shape.Kept p n) : (s.objects.map (·.id)).Nodup := by
  rw [← map_outline, List.map_map]
  exact h.owned.ids

theorem memoryWellFormed (hfit : p.GlobalsFit) (h : s.shape.Kept p n) : s.MemoryWellFormed where
  apart := map_outline s ▸ h.owned.apart hfit
  stop_le o ho := by
    obtain ⟨e, he, rfl⟩ := exists_outline ho
    have hpool : s.shape.pool.next ≤ alignUp AddressPool.initial.limit := h.owned.limit_eq ▸ h.owned.next_le
    have hlimit : alignUp AddressPool.initial.limit ≤ wordLimit := by decide
    have hinitial : AddressPool.initial.next ≤ wordLimit := by decide
    cases hglobal : e.2.isGlobal with
    | true => exact Nat.le_trans (h.owned.globals hfit e he hglobal) hinitial
    | false => exact Nat.le_trans (h.owned.pooled e he hglobal).2 (Nat.le_trans hpool hlimit)
  below_pool o ho hglobal := by
    obtain ⟨e, he, rfl⟩ := exists_outline ho
    exact (h.owned.pooled e he hglobal).2
  ids := nodup_ids h
  bound f hf o ho := by
    have hheld : o ∈ s.shape.held := held_shape s ▸ List.mem_flatMap.2 ⟨f, hf, ho⟩
    exact exists_find? (ascending_outline.1 h.ascending) (h.owned.mem_of_held hheld).2
  owned o ho hlocal := by
    have hnodup : s.objects.Nodup := (nodup_ids h).of_map _
    refine exists_filter_eq ?_
    rw [← held_shape, h.owned.locals.count_eq, map_outline, List.count_filter hlocal]
    exact List.count_eq_one_of_mem hnodup ho

end State

/-! ## Control of a state -/

/-- The thread is in the function of its innermost frame, frames have the registers of their functions, and every
call returns to the frame below. -/
structure Thread.Stacked (p : Program) (t : Thread) : Prop where
  inside : ∃ top rest, t.stack = top :: rest ∧ top.function = t.pc.function
  registers : ∀ f ∈ t.stack, ∃ function, p.functions[f.function]? = some function ∧
    f.locals.size = function.registers
  callers : ∀ i f site, t.stack[i]? = some f → f.caller = some site →
    ∃ below, t.stack[i + 1]? = some below ∧ site.Returns p below.shape

/-- The current thread is there and can run, and all threads are at instructions, unless the state has failed:
then its current thread can be anywhere in its function. -/
structure State.InControl (p : Program) (failed : Prop) (s : State) : Prop where
  current : ∃ t, s.thread? s.current = some t ∧ t.enabled = true
  threads : ∀ t ∈ s.threads, t.Stacked p
  next : ∀ t ∈ s.threads, (failed → t.id ≠ s.current) → (p.instruction? t.pc).isSome

theorem Linked.sized_of_mem {stack : List FrameShape} (h : Linked p stack) {f : FrameShape} (hf : f ∈ stack) :
    f.Sized p := by
  induction stack with
  | nil => cases hf
  | cons top rest ih =>
    obtain rfl | hf := List.mem_cons.1 hf
    · exact h.sized
    · cases rest with
      | nil => cases hf
      | cons below rest => exact ih h.2.2 hf

theorem Linked.returns {stack : List FrameShape} (h : Linked p stack) {i : Nat} {f : FrameShape}
    {site : CallSite} (hf : stack[i]? = some f) (hsite : f.caller = some site) :
    ∃ below, stack[i + 1]? = some below ∧ site.Returns p below := by
  induction stack generalizing i with
  | nil => simp at hf
  | cons top rest ih =>
    cases i with
    | zero =>
      obtain rfl : top = f := by simpa using hf
      obtain ⟨below, rest', rfl, hreturns, -⟩ := h.pop hsite
      exact ⟨below, rfl, hreturns⟩
    | succ i =>
      cases rest with
      | nil => simp at hf
      | cons below rest => exact ih h.2.2 hf

theorem Thread.stacked {t : Thread} (h : t.shape.In p t.pc.function) : t.Stacked p := by
  obtain ⟨top, rest, hstack, hfunction, hlinked⟩ := h
  have hmap : t.stack.map (·.shape) = top :: rest := hstack
  rw [← hmap] at hlinked
  obtain ⟨f, fs, hfs, rfl, -⟩ := List.map_eq_cons_iff.1 hmap
  refine ⟨⟨f, fs, hfs, hfunction⟩, fun f hf ↦ ?_, fun i f site hf hsite ↦ ?_⟩
  · exact hlinked.sized_of_mem (List.mem_map_of_mem (f := Frame.shape) hf)
  · have hshape : (t.stack.map (·.shape))[i]? = some f.shape := by rw [List.getElem?_map, hf]; rfl
    obtain ⟨below, hbelow, hreturns⟩ := hlinked.returns hshape hsite
    rw [List.getElem?_map] at hbelow
    obtain ⟨g, hg, rfl⟩ := Option.map_eq_some_iff.1 hbelow
    exact ⟨g, hg, hreturns⟩

theorem State.inControl {s : State} {failed : Prop} {P : ThreadShape → Prop} (h : s.shape.Threaded p P)
    (hP : ∀ t, P t → t.enabled = true ∧ t.In p t.pc.function ∧ (¬failed → (p.instruction? t.pc).isSome)) :
    s.InControl p failed := by
  obtain ⟨t, ht, hid, hPt⟩ := h.current
  obtain ⟨u, -, hu, rfl⟩ := exists_thread? h.nodup ht hid
  have hcases : ∀ v ∈ s.threads, P v.shape ∨ v.id ≠ s.current ∧ v.shape.Placed p := by
    intro v hv
    have hmem : v.shape ∈ s.shape.threads := List.mem_map_of_mem hv
    by_cases heq : v.id = s.current
    · exact .inl (Shape.eq_of_id_eq h.nodup hmem ht (Eq.trans heq hid.symm) ▸ hPt)
    · exact .inr ⟨heq, h.others _ hmem heq⟩
  refine ⟨⟨u, hu, (hP _ hPt).1⟩, fun v hv ↦ Thread.stacked ?_, fun v hv hne ↦ ?_⟩
  · obtain hv | ⟨-, hv⟩ := hcases v hv
    · exact (hP _ hv).2.1
    · exact hv.1
  · by_cases heq : v.id = s.current
    · obtain hv | ⟨hne, -⟩ := hcases v hv
      · exact (hP _ hv).2.2 fun hfailed ↦ hne hfailed heq
      · exact (hne heq).elim
    · exact (h.others _ (List.mem_map_of_mem hv) heq).2

namespace Executor

variable {e e' : Executor σ} {failed : List StateId}

/-! ## Runs -/

/-- A machine that was set up for the program and not run yet: with whatever configuration, solver, arguments,
seeds, searcher, host and records to replay. -/
inductive Readied (p : Program) : Executor σ → Prop
  | start {config : Config} {solver : Solver σ} {watchdog : Watchdog} {e : Executor σ}
      (he : start p config solver watchdog = .ok e) : Readied p e
  | arguments {e e' : Executor σ} {arguments : List Expr} (h : Readied p e)
      (he' : e.withArguments arguments = .ok e') : Readied p e'
  | seeds {e : Executor σ} (h : Readied p e) (seeds : List (List TestInput)) : Readied p (e.withSeeds seeds)
  | settings {e : Executor σ} (h : Readied p e) (searcher : Searcher) (host : Dispatcher)
      (nans : Nat → Ieee.Format → Bool × Nat) (replayPath : Option (List Bool))
      (replayInputs : Option (List TestInput)) :
      Readied p { e with searcher, host, nans, replayPath, replayInputs }

/-- The state that a command steps, if it is one step. -/
def Command.target (c : Command) (e : Executor σ) : Option StateId :=
  match c with
  | step => e.picked
  | stepState id => some id
  | _ => none

/-- A machine that was set up for the program, or that comes out of such a one after any number of commands. In
`failed` are the states whose steps ended in errors that end the run. -/
inductive Run (p : Program) : List StateId → Executor σ → Prop
  | readied {e : Executor σ} (h : Readied p e) : Run p [] e
  | goes {failed : List StateId} {e e' : Executor σ} (h : Run p failed e) (c : Command)
      (he' : c.outcome.run e = .ok (.ok (), e')) : Run p failed e'
  | fails {failed : List StateId} {e e' : Executor σ} {error : PathError} (h : Run p failed e) (c : Command)
      (he' : c.outcome.run e = .ok (.error error, e')) : Run p ((c.target e).toList ++ failed) e'

theorem Readied.roomy (hp : p.isValid) (h : Readied p e) : e.Roomy p := by
  induction h with
  | start he => exact (found_start hp _ _ _).of_eq he
  | arguments _ he' ih => exact (ih.found_withArguments hp _).of_eq he'
  | seeds _ seeds ih =>
    unfold withSeeds
    split
    · exact ih
    · exact ⟨ih.ordered.unmoved ⟨rfl, rfl, rfl, rfl, rfl, rfl⟩, ih.removed_eq, ih.room⟩
  | settings _ _ _ _ _ _ ih =>
    exact ⟨ih.ordered.unmoved ⟨rfl, rfl, rfl, rfl, rfl, rfl⟩, ih.removed_eq, ih.room⟩

/-- What a command leaves of a machine in which the states of `failed` may stall, if it steps `target`. -/
def Leaves (p : Program) (failed : List StateId) (target : Option StateId)
    (q : Except PathError Unit × Executor σ) : Prop :=
  (q.1 = .ok () → q.2.Ordered p failed) ∧ q.2.Ordered p (target.toList ++ failed) ∧ q.2.removed = []

theorem leaves_of_ordered {target : Option StateId} {q : Except PathError Unit × Executor σ} {left : List StateId}
    (hleft : left = failed ∨ left = []) (hq : q.2.Ordered p left) (hr' : q.2.removed = []) :
    Leaves p failed target q := by
  have hfailed : q.2.Ordered p failed := by
    refine hq.mono fun i hi ↦ ?_
    obtain rfl | rfl := hleft
    · exact hi
    · exact (List.not_mem_nil hi).elim
  exact ⟨fun _ ↦ hfailed, hfailed.mono fun _ ↦ List.mem_append_right _, hr'⟩

/-- The command can step a state of which a step ended the run before. -/
def Command.Retries (c : Command) (failed : List StateId) (e : Executor σ) : Prop :=
  match c with
  | run => failed ≠ []
  | c => ∃ id ∈ failed, c.target e = some id

theorem Command.not_retries_nil (c : Command) (e : Executor σ) : ¬c.Retries [] e := by
  cases c <;> simp [Retries]

section

variable (hp : p.isValid) (he : e.Ordered p failed) (hr : e.removed = [])
include he hr

theorem leaves_perform {stalls : Prop} {x : Session σ Unit} {target : Option StateId}
    (hx : Goes p stalls failed x fun _ left ↦ left = failed ∨ left = []) :
    Ends (Fault.Bearable stalls) ((do x; return .ok () : Session σ (Except PathError Unit)).run e)
      (Leaves p failed target) := by
  refine ends_run_bind (hx e he hr) ?_
  rintro _ e' ⟨left, hleft, he', hr'⟩
  exact ends_pure (leaves_of_ordered hleft he' hr')

include hp

theorem leaves_outcome (c : Command) :
    Ends (Fault.Bearable (c.Retries failed e)) (c.outcome.run e) (Leaves p failed (c.target e)) := by
  cases c with
  | update current =>
    exact leaves_perform he hr ((spares_update current).bind fun _ ↦ goes_pure (.inl rfl))
  | step =>
    refine ends_run_bind (ordered_step hp he fun id hid hmem ↦ ⟨id, hmem, hid⟩) ?_
    rintro r e' ⟨left, hleft, he', hr'⟩
    obtain rfl | ⟨⟨error, rfl⟩, rfl⟩ := hleft
    · exact ends_pure (leaves_of_ordered (.inl rfl) he' hr')
    · exact ends_pure ⟨by rintro ⟨⟩, he', hr'⟩
  | stepState id =>
    refine ends_run_bind (goes_stepState hp id (fun hmem ↦ ⟨id, hmem, rfl⟩) e he hr) ?_
    rintro r e' ⟨left, hleft, he', hr'⟩
    obtain rfl | ⟨⟨error, rfl⟩, rfl⟩ := hleft
    · exact ends_pure (leaves_of_ordered (.inl rfl) he' hr')
    · exact ends_pure ⟨by rintro ⟨⟩, he', hr'⟩
  | poll counter =>
    exact leaves_perform he hr ((spares_stops counter).bind fun _ ↦ goes_pure (.inl rfl))
  | checkMemory => exact leaves_perform he hr (spares_checkMemory.imp .inl)
  | giveUp ids reason => exact leaves_perform he hr ((spares_giveUp ids reason).imp .inl)
  | halt => exact leaves_perform he hr (goes_bind clears_halt fun _ _ h ↦ goes_pure (.inr h))
  | run =>
    refine (recovers_run hp id e he hr).mono ?_
    rintro q ⟨left, hleft, he', hr'⟩
    exact leaves_of_ordered hleft he' hr'

end

theorem Run.ordered (hp : p.isValid) (h : Run p failed e) : e.Ordered p failed ∧ e.removed = [] := by
  induction h with
  | readied h => exact ⟨(h.roomy hp).ordered, (h.roomy hp).removed_eq⟩
  | goes _ c he' ih =>
    obtain ⟨hok, -, hr'⟩ := (leaves_outcome hp ih.1 ih.2 c).of_eq he'
    exact ⟨hok rfl, hr'⟩
  | fails _ c he' ih => exact ((leaves_outcome hp ih.1 ih.2 c).of_eq he').2

/-- Memory of every live state is well formed at any time, and no object is ever bound twice or used while it is
not bound. -/
theorem memory_of_run (hp : p.isValid) (hfit : p.GlobalsFit) (h : Run p failed e) :
    (∀ (id : StateId) (s : State), e.states[id]? = some s → s.MemoryWellFormed) ∧
      ∀ c : Command, c.outcome.run e ≠ .error .unbound := by
  obtain ⟨he, hr⟩ := h.ordered hp
  exact ⟨fun id s hs ↦ State.memoryWellFormed hfit (he.kept hs (hr ▸ List.not_mem_nil)), fun c ↦
    ((leaves_outcome hp he hr c).weaken fun _ h ↦ h.1).ne_error⟩

/-- A program with a global that puts an object on the stack. -/
def storing : Program where
  functions := #[{
    name := "main", parameters := 0, variadic := false, registers := 1
    body := .defined #[#[.alloca 4 (.constant 0) 0, .ret none]] }]
  globals := #[⟨"g", 2, none, false⟩]
  constants := #[.int 1 64]
  entry := 0

/-- After the first step of such a program both objects are bound. -/
theorem memory_of_run_storing : ∃ (e : Executor Unit) (s : State), Run storing [] e ∧ e.states[0]? = some s ∧
    s.objects.length = 2 ∧ s.frames.length = 1 ∧ s.MemoryWellFormed ∧
      ∀ c : Command, c.outcome.run e ≠ .error .unbound := by
  have hrun : (do
      let e ← start storing {} { backend := .silent, state := () } .never
      let q ← (Command.stepState 0).outcome.run e
      return (q.1.isOk, q.2.states[0]?.map fun s ↦ (s.objects.length, s.frames.length)) :
        Checked (Bool × Option (Nat × Nat))) = .ok (true, some (2, 1)) := by
    decide +kernel
  obtain ⟨e, hstart, hrun⟩ := bind_eq_ok.1 hrun
  obtain ⟨⟨r, e'⟩, hstep, hresult⟩ := bind_eq_ok.1 hrun
  obtain ⟨hok, hs⟩ := Prod.mk.inj (pure_eq_ok.1 hresult)
  obtain ⟨s, hs, hlengths⟩ := Option.map_eq_some_iff.1 hs
  obtain ⟨hobjects, hframes⟩ := Prod.mk.inj hlengths
  cases r with
  | error error => cases hok
  | ok _ =>
    have hreached : Run storing [] e' := .goes (.readied (.start hstart)) (.stepState 0) hstep
    obtain ⟨hmemory, hfaults⟩ := memory_of_run (by decide +kernel) (by decide) hreached
    exact ⟨e', s, hreached, hs, hobjects, hframes, hmemory 0 s hs, hfaults⟩

/-- Every live state is in control at any time, except that a state of which a step ended the run can be past the
end of a block. Nothing is ever missing that an instruction looks up, unless such a state is stepped again. -/
theorem control_of_run (hp : p.isValid) (h : Run p failed e) :
    (∀ (id : StateId) (s : State), e.states[id]? = some s → s.InControl p (id ∈ failed)) ∧
      ∀ c : Command, ¬c.Retries failed e → c.outcome.run e ≠ .error .missing := by
  obtain ⟨he, hr⟩ := h.ordered hp
  refine ⟨fun id s hs ↦ ?_, fun c hc ↦ ?_⟩
  · obtain hinOrder | ⟨hmem, ⟨l, -, hmidway⟩, -⟩ := he.states id s hs (hr ▸ List.not_mem_nil)
    · exact State.inControl hinOrder.controlled fun t ht ↦ ⟨ht.1, ht.2.1, fun _ ↦ ht.2.2⟩
    · refine State.inControl hmidway fun t ht ↦ ⟨ht.enabled, ?_, fun hfailed ↦ (hfailed hmem).elim⟩
      rw [ht.pc_eq]
      exact ht.inside
  · exact ((leaves_outcome hp he hr c).weaken fun _ h hmissing ↦ hc (h.2 hmissing)).ne_error

/-- A program that goes on in two states at once. -/
def twofold : Program where
  functions := #[{
    name := "main", parameters := 0, variadic := false, registers := 1
    body := .defined #[#[.call (.intrinsic .fork) [] (some 0), .ret none]] }]
  globals := #[]
  constants := #[]
  entry := 0

/-- After the first step of a program that goes on in two states both of them can go on. -/
theorem control_of_run_twofold : ∃ (e : Executor Unit) (s t : State), Run twofold [] e ∧
    e.states[0]? = some s ∧ e.states[1]? = some t ∧ s.InControl twofold False ∧ t.InControl twofold False ∧
      ∀ c : Command, c.outcome.run e ≠ .error .missing := by
  have hrun : (do
      let e ← start twofold {} { backend := .silent, state := () } .never
      let q ← (Command.stepState 0).outcome.run e
      return (q.1.isOk, q.2.states[0]?.isSome, q.2.states[1]?.isSome) : Checked (Bool × Bool × Bool)) =
        .ok (true, true, true) := by
    unfold Command.outcome stepState Exec.step Exec.instruction Exec.intrinsic Exec.forkTwice Exec.branch
    simp only [Exec.arms_pair]
    decide +kernel
  obtain ⟨e, hstart, hrun⟩ := bind_eq_ok.1 hrun
  obtain ⟨⟨r, e'⟩, hstep, hresult⟩ := bind_eq_ok.1 hrun
  simp only [pure_eq_ok, Prod.mk.injEq, Option.isSome_iff_exists] at hresult
  obtain ⟨hok, ⟨s, hs⟩, t, ht⟩ := hresult
  cases r with
  | error error => cases hok
  | ok _ =>
    have hreached : Run twofold [] e' := .goes (.readied (.start hstart)) (.stepState 0) hstep
    obtain ⟨hcontrol, hfaults⟩ := control_of_run (by decide +kernel) hreached
    exact ⟨e', s, t, hreached, hs, ht, by simpa using hcontrol 0 s hs, by simpa using hcontrol 1 t ht,
      fun c ↦ hfaults c (c.not_retries_nil e')⟩

/-- A program that goes to the same block on both sides of a branch. -/
def parting : Program where
  functions := #[{
    name := "main", parameters := 0, variadic := false, registers := 1
    body := .defined #[#[.condBr (.constant 0) 1 1], #[.ret none]] }]
  globals := #[]
  constants := #[.int 1 1]
  entry := 0

/-- Where no side is left to replay the run ends, and the state stays live behind the end of its block. -/
theorem exists_run_displaced : ∃ (e : Executor Unit) (s : State) (t : Thread), parting.isValid ∧
    Run parting [0] e ∧ e.states[0]? = some s ∧ s.thread? s.current = some t ∧
      parting.instruction? t.pc = none := by
  have hrun : (do
      let e ← start parting {} { backend := .silent, state := () } .never
      let e := { e with replayPath := some [] }
      let q ← (Command.stepState 0).outcome.run e
      return (q.1.isOk, q.2.states[0]?.map fun s ↦ (s.thread? s.current).map fun t ↦
        (parting.instruction? t.pc).isSome) : Checked (Bool × Option (Option Bool))) =
          .ok (false, some (some false)) := by
    decide +kernel
  obtain ⟨e, hstart, hrun⟩ := bind_eq_ok.1 hrun
  obtain ⟨⟨r, e'⟩, hstep, hresult⟩ := bind_eq_ok.1 hrun
  obtain ⟨hok, hs⟩ := Prod.mk.inj (pure_eq_ok.1 hresult)
  obtain ⟨s, hs, ht⟩ := Option.map_eq_some_iff.1 hs
  obtain ⟨t, ht, hnone⟩ := Option.map_eq_some_iff.1 ht
  cases r with
  | ok _ => cases hok
  | error error =>
    have hready := Readied.settings (.start hstart) e.searcher e.host e.nans (some []) e.replayInputs
    exact ⟨e', s, t, by decide +kernel, .fails (.readied hready) (.stepState 0) hstep, hs, ht, by simpa using hnone⟩

end Executor

end Symex
