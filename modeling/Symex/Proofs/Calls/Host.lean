import Symex.Proofs.Calls.Entering

namespace Symex

open Checked

variable {σ : Type} {I : Inputs} {F : Fault → Prop}

/-! ## Memory -/

namespace AddressSpace

variable {m : AddressSpace} {x : ObjectState}

theorem exists_foldlM_writeByte {l : List (Nat × UInt8)} (hl : ∀ d ∈ l, d.1 < x.bytes.size) :
    ∃ y, l.foldlM (fun c d ↦ c.writeByte d.1 d.2) x = .ok y ∧ y.bytes.size = x.bytes.size := by
  induction l generalizing x with
  | nil => exact ⟨x, rfl, rfl⟩
  | cons d l ih =>
    rw [List.forall_mem_cons] at hl
    have hwrite : x.writeByte d.1 d.2 = .ok { x.markConcrete d.1 with bytes := x.bytes.set d.1 d.2 hl.1 } :=
      dif_pos hl.1
    rw [List.foldlM_cons, hwrite, ok_bind]
    obtain ⟨y, hy, hsize⟩ := ih (x := { x.markConcrete d.1 with bytes := x.bytes.set d.1 d.2 hl.1 })
      (by simpa using hl.2)
    exact ⟨y, hy, hsize.trans (by simp)⟩

def sizes (m : AddressSpace) (key : ObjectKey) : Option Nat := (m.objects.get? key).map (·.bytes.size)

theorem exists_takeOver {changed : List (MemoryObject × List (Nat × UInt8))} (h : m.objects.Sorted)
    (hchanged : ∀ q ∈ changed, ∃ n, m.sizes q.1.key = some n ∧ ∀ d ∈ q.2, d.1 < n) :
    ∃ m', changed.foldlM (fun s q ↦ s.modify q.1 fun c ↦ q.2.foldlM (fun c d ↦ c.writeByte d.1 d.2) c) m =
      .ok m' := by
  induction changed generalizing m with
  | nil => exact ⟨m, rfl⟩
  | cons q changed ih =>
    rw [List.forall_mem_cons] at hchanged
    obtain ⟨⟨n, hn, hlt⟩, hchanged⟩ := hchanged
    obtain ⟨x, hx, rfl⟩ := Option.map_eq_some_iff.1 hn
    obtain ⟨y, hy, hsize⟩ := exists_foldlM_writeByte (x := { x with owner := m.epoch }) hlt
    have hmodify : m.modify q.1 (fun c ↦ q.2.foldlM (fun c d ↦ c.writeByte d.1 d.2) c) =
        .ok { m with objects := m.objects.modify q.1.key fun _ ↦ y } := by
      unfold modify
      rw [hx]
      dsimp only
      rw [hy]
      rfl
    have hsizes : sizes { m with objects := m.objects.modify q.1.key fun _ ↦ y } = m.sizes := by
      funext key
      unfold sizes
      rw [AvlMap.get?_modify h]
      split
      · rename_i heq
        rw [heq, hx]
        exact congrArg some hsize
      · rfl
    rw [List.foldlM_cons, hmodify, ok_bind]
    exact ih (h.modify _) (by rwa [hsizes])

theorem Ordered.exists_copyIn (h : m.Ordered) (image : HostMemory) :
    ∃ m', m.copyIn image = .ok ((changes image m.toList).isSome, m') := by
  unfold copyIn
  cases hchanged : changes image m.toList with
  | none => exact ⟨m, rfl⟩
  | some changed =>
    have hroom : ∀ q ∈ changed, ∃ n, m.sizes q.1.key = some n ∧ ∀ d ∈ q.2, d.1 < n := by
      intro q hq
      obtain ⟨x, hx, hobject, hlt⟩ := exists_of_mem_changes hchanged hq
      refine ⟨x.bytes.size, ?_, hlt⟩
      rw [sizes, ← hobject, h.get?_eq hx]
      rfl
    obtain ⟨m', hm'⟩ := exists_takeOver h.sorted hroom
    refine ⟨m', ?_⟩
    dsimp only
    rw [hm']
    rfl

end AddressSpace

/-! ## Arguments -/

/-- The solutions `S` agree on the value of an expression. -/
def Determined (S : Assignment → Prop) (e : Expr) : Prop := ∀ a a', S a → S a' → a.val e = a'.val e

/-- The focus with other constraints for the state. -/
def Focus.narrowed (f : Focus σ) (solver : Solver σ) (constraints : ConstraintSet) : Focus σ where
  executor := { f.executor with solver }
  state := { f.state with constraints }

theorem Focus.tried_narrowed {f : Focus σ} {solver : Solver σ} {c : ConstraintSet}
    (hsame : f.executor.solver.Same solver) (hvalid : c.Valid) (hsat : I.Satisfiable c) :
    f.Tried I (f.narrowed solver c) none where
  advanced := ⟨.withSolver hsame, fun _ _ ↦ rfl, fun _ h ↦ .inl h⟩
  unforked := ⟨rfl, rfl⟩
  removed_eq := rfl
  id_eq := rfl
  valid := hvalid
  satisfiable := hsat
  plain := by simp
  trace := by simp

namespace Exec

variable {focus : Focus σ} {e : Expr}

section

variable (hvalid : focus.state.constraints.Valid) (hsat : I.Satisfiable focus.state.constraints)
  (hexact : focus.executor.solver.backend.Exact I False)
include hvalid hsat hexact

theorem ends_toUnique {P : Except PathError Expr → Focus σ → Prop} (he : e.WellFormed)
    (hone : ∀ v n solver, focus.executor.solver.Same solver → v.width = e.width → v.value? = some n →
      (∀ a, I.Solves a focus.state.constraints → a.val e = n) → P (.ok v) (focus.withSolver solver))
    (hmany : ∀ solver, focus.executor.solver.Same solver → e.value? = none →
      ¬Determined (I.Solves · focus.state.constraints) e → P (.ok e) (focus.withSolver solver)) :
    (toUnique e).Ends F focus P := by
  unfold toUnique
  cases hvalue : e.value? with
  | some n =>
    have hconst : e.isConst = true := Expr.isConst_iff.2 ⟨n, Expr.value?_eq_some.1 hvalue⟩
    rw [if_pos hconst]
    exact ends_pure (hone e n focus.executor.solver (.refl _) rfl hvalue fun a _ ↦ a.val_of_value? hvalue)
  | none =>
    rw [if_neg (Expr.not_isConst hvalue)]
    refine ends_seq (ends_ask (Solver.answers_value hvalid hsat he) hexact fun r solver hsame hr ↦ ?_)
    cases r with
    | error _ => exact hr.elim
    | ok v =>
      obtain ⟨n, hn, a₀, ha₀, hattained⟩ := hr.exists_value
      obtain ⟨same, hmk, hmeans⟩ := Expr.exists_mkEq he hr.wellFormed hr.width_eq.symm
      refine ends_seq (ends_lift (Checked.ends_of_eq hmk ?_))
      refine ends_seq (ends_ask (Solver.answers_mustBeTrue hvalid hsat hmeans.truth.1)
        (hsame.backend_eq ▸ hexact) fun r solver' hsame' hmust ↦ ?_)
      cases r with
      | error _ => exact hmust.elim
      | ok must =>
        cases must with
        | true =>
          refine ends_pure (hone v n solver' (hsame.trans hsame') hr.width_eq hn fun a ha ↦ ?_)
          rw [(hmeans.val_iff ha.free).1 (hmust.1 rfl a ha), a.val_of_value? hn]
        | false =>
          refine ends_pure (hmany solver' (hsame.trans hsame') hvalue fun hdetermined ↦ ?_)
          refine Bool.false_ne_true (hmust.2 fun a ha ↦ (hmeans.val_iff ha.free).2 ?_)
          rw [hdetermined a a₀ ha ha₀, hattained, a.val_of_value? hn]

theorem ends_toConstant {P : Except PathError Expr → Focus σ → Prop} (he : e.WellFormed)
    (hseeds : focus.executor.seeds[focus.state.id]? = none) (hopen : e.value? = none)
    (h : ∀ v n solver c, focus.executor.solver.Same solver → c.Valid → I.Satisfiable c → v.value? = some n →
      (∀ a, I.Solves a c ↔ I.Solves a focus.state.constraints ∧ a.val e = n) →
      P (.ok v) (focus.narrowed solver c)) :
    (toConstant e).Ends F focus P := by
  unfold toConstant
  rw [if_neg (Expr.not_isConst hopen)]
  refine ends_seq (ends_query (Solver.answers_value hvalid hsat he) hexact (fun v solver hsame hv ↦ ?_)
    fun _ _ h ↦ h.elim)
  obtain ⟨n, hn, a₀, ha₀, hattained⟩ := hv.exists_value
  obtain ⟨same, hmk, hmeans⟩ := Expr.exists_mkEq he hv.wellFormed hv.width_eq.symm
  have hsame_iff : ∀ {a : Assignment}, a.free → (a.val same ≠ 0 ↔ a.val e = n) := fun {a} ha ↦ by
    rw [hmeans.val_iff ha, a.val_of_value? hn]
  refine ends_seq (ends_lift (Checked.ends_of_eq hmk ?_))
  refine ends_seq (ends_addConstraint (I := I) (by exact hvalid) hmeans.truth
    ⟨a₀, ha₀, (hsame_iff ha₀.free).2 hattained⟩ (by exact hseeds) fun c hc hsolves ↦ ends_pure ?_)
  have hsolves' : ∀ a, I.Solves a c ↔ I.Solves a focus.state.constraints ∧ a.val e = n := fun a ↦
    (hsolves a).trans (and_congr_right fun ha ↦ hsame_iff ha.free)
  exact h v n solver c hsame hc ⟨a₀, (hsolves' a₀).2 ⟨ha₀, hattained⟩⟩ hn hsolves'

theorem ends_hostArgument {P : Except PathError Nat → Focus σ → Prop} {name : String} (he : e.WellFormed)
    (hseeds : focus.executor.seeds[focus.state.id]? = none)
    (hok : ∀ n solver c, focus.executor.solver.Same solver → c.Valid → I.Satisfiable c →
      (∀ a, I.Solves a c ↔ I.Solves a focus.state.constraints ∧ a.val e = n) →
      (focus.executor.config.allowSymbolicExternalArguments = true ∨
        Determined (I.Solves · focus.state.constraints) e) → P (.ok n) (focus.narrowed solver c))
    (herror : ∀ solver, focus.executor.solver.Same solver →
      focus.executor.config.allowSymbolicExternalArguments = false →
      ¬Determined (I.Solves · focus.state.constraints) e →
      P (.error ⟨focus.executor.location, .symbolicExternalArgument name⟩) (focus.withSolver solver)) :
    (hostArgument name e).Ends F focus P := by
  refine ends_seq (ends_toUnique hvalid hsat hexact he (fun v n solver hsame _ hv hall ↦ ?_)
    fun solver hsame hopen hmany ↦ ?_)
  · dsimp only
    rw [hv]
    refine ends_pure (hok n solver _ hsame hvalid hsat (fun a ↦ ?_) (.inr fun a a' ha ha' ↦ ?_))
    · exact ⟨fun ha ↦ ⟨ha, hall a ha⟩, fun ha ↦ ha.1⟩
    · rw [hall a ha, hall a' ha']
  · dsimp only
    rw [hopen]
    refine ends_bind_ok rfl ?_
    cases hallow : focus.executor.config.allowSymbolicExternalArguments with
    | true =>
      rw [if_pos (by exact hallow)]
      refine ends_seq (ends_toConstant (by exact hvalid) (by exact hsat) (by exact hsame.backend_eq ▸ hexact) he
        (by exact hseeds) hopen fun v n solver' c hsame' hc hsat' hn hsolves ↦ ends_pure ?_)
      rw [hn]
      exact hok n solver' c (hsame.trans hsame') hc hsat' hsolves (.inl hallow)
    | false =>
      rw [if_neg (by rw [show (focus.withSolver solver).executor.config.allowSymbolicExternalArguments = false
        from hallow]; decide)]
      exact ends_fail (herror solver hsame hallow hmany)

theorem ends_hostArguments {P : Except PathError (List Nat) → Focus σ → Prop} {name : String} {l : List Expr}
    (hl : ∀ e ∈ l, e.WellFormed) (hseeds : focus.executor.seeds[focus.state.id]? = none)
    (hok : ∀ values solver c, focus.executor.solver.Same solver → c.Valid → I.Satisfiable c →
      (∀ a, I.Solves a c ↔ I.Solves a focus.state.constraints ∧ l.map a.val = values) →
      (focus.executor.config.allowSymbolicExternalArguments = true ∨
        ∀ e ∈ l, Determined (I.Solves · focus.state.constraints) e) → P (.ok values) (focus.narrowed solver c))
    (herror : ∀ solver c, focus.executor.solver.Same solver → c.Valid → I.Satisfiable c →
      (∀ a, I.Solves a c ↔ I.Solves a focus.state.constraints) →
      focus.executor.config.allowSymbolicExternalArguments = false →
      (∃ e ∈ l, ¬Determined (I.Solves · focus.state.constraints) e) →
      P (.error ⟨focus.executor.location, .symbolicExternalArgument name⟩) (focus.narrowed solver c)) :
    (l.mapM (hostArgument name)).Ends F focus P := by
  induction l generalizing focus P with
  | nil =>
    exact ends_pure (hok [] focus.executor.solver focus.state.constraints (.refl _) hvalid hsat (by simp)
      (.inr (by simp)))
  | cons e l ih =>
    rw [List.forall_mem_cons] at hl
    rw [List.mapM_cons]
    refine ends_seq (ends_hostArgument hvalid hsat hexact hl.1 hseeds
      (fun n solver c hsame hc hsat' hsolves hone ↦ ?_) fun solver hsame hallow hmany ↦ ?_)
    -- where no argument may be fixed, the first one left the solutions as they were
    · have hsame_iff : focus.executor.config.allowSymbolicExternalArguments = false → ∀ a,
          I.Solves a c ↔ I.Solves a focus.state.constraints := by
        intro hallow a
        have hdetermined := hone.resolve_left (by simp [hallow])
        obtain ⟨a₀, ha₀⟩ := hsat'
        obtain ⟨ha₀, hn⟩ := (hsolves a₀).1 ha₀
        exact ⟨fun ha ↦ ((hsolves a).1 ha).1, fun ha ↦ (hsolves a).2 ⟨ha, hdetermined a a₀ ha ha₀ ▸ hn⟩⟩
      have hdetermined_iff : focus.executor.config.allowSymbolicExternalArguments = false → ∀ e',
          Determined (I.Solves · c) e' ↔ Determined (I.Solves · focus.state.constraints) e' := by
        intro hallow e'
        rw [show (I.Solves · c) = (I.Solves · focus.state.constraints) from
          funext fun a ↦ propext (hsame_iff hallow a)]
      refine ends_seq (ih (by exact hc) (by exact hsat') (by exact hsame.backend_eq ▸ hexact) hl.2 (by exact hseeds)
        (fun values solver' c' hsame' hc' hsat'' hsolves' hrest ↦ ends_pure ?_) ?_)
      · refine hok (n :: values) solver' c' (hsame.trans hsame') hc' hsat'' (fun a ↦ ?_) ?_
        · rw [hsolves', show (focus.narrowed solver c).state.constraints = c from rfl, hsolves, List.map_cons,
            List.cons.injEq, and_assoc]
        · cases hallow : focus.executor.config.allowSymbolicExternalArguments with
          | true => exact .inl rfl
          | false =>
            refine .inr (List.forall_mem_cons.2 ⟨hone.resolve_left (by simp [hallow]), fun e' he' ↦ ?_⟩)
            exact (hdetermined_iff hallow e').1 (hrest.resolve_left (by simp [Focus.narrowed, hallow]) e' he')
      · intro solver' c' hsame' hc' hsat'' hsolves' hallow hmany
        refine herror solver' c' (hsame.trans hsame') hc' hsat'' (fun a ↦ ?_) hallow ?_
        · exact (hsolves' a).trans (hsame_iff hallow a)
        · obtain ⟨e', he', hmany⟩ := hmany
          exact ⟨e', by simp [he'], mt (hdetermined_iff hallow e').2 hmany⟩
    · exact herror solver focus.state.constraints hsame hvalid hsat (fun _ ↦ .rfl) hallow ⟨e, by simp, hmany⟩

end

end Exec

/-! ## Calls -/

/-- From `s` to `s'` a function of the host returned `result` and left `image`, and nothing else changed. -/
structure State.Returned (s : State) (result : Option Nat) (image : HostMemory) (width : Option Nat)
    (destination : Option Register) (s' : State) : Prop where
  memory : ∃ epoch m, { s.memory with epoch }.copyIn image = .ok (true, m) ∧ s'.memory.objects = m.objects
  dropped : destination = none → { s with memory := s'.memory }.SameData s'
  loaded : ∀ r w, destination = some r → width = some w →
    { s with memory := s'.memory }.Loaded r (.word (result.getD 0) w) s'

namespace Focus

variable (f : Focus σ) (calls : List HostCall) (name : String) (width : Option Nat) (destination : Option Register)
  (values : List Nat)

/-- What a function of the host does, after some other calls, with the memory of the state in focus. -/
def hostCall : Except HostError (Option Nat) × HostMemory :=
  f.executor.host.answer calls ⟨name, values, f.state.memory.copyOut {}⟩

/-- The error that a call of a function of the host ends with, if it does. -/
def hostError? : Option ExecError :=
  match (f.hostCall calls name values).1 with
  | .error _ => some (.externalCallFailed name)
  | .ok _ =>
    if (AddressSpace.changes (f.hostCall calls name values).2 f.state.memory.toList).isSome then
      if destination.isSome ∧ width = none then some .missingReturnValue else none
    else some .externalModifiedReadOnly

end Focus

namespace Exec

variable {g h : Focus σ} {name : String} {width : Option Nat} {arguments : List Expr}
  {destination : Option Register} {Q : Option ExecError → State → Prop}

/-- What becomes of the solutions `S` of a state that calls a function of the host: the error that ends the
state, if one does, and the state. -/
inductive HostOutcome (I : Inputs) (g : Focus σ) (name : String) (width : Option Nat) (arguments : List Expr)
    (destination : Option Register) (S : Assignment → Prop) : Option ExecError → State → Prop
  /-- Such calls are not allowed. -/
  | disallowed {s : State} (hconfig : g.executor.config.allowExternalCalls = false)
    (hsolves : ∀ a, I.Solves a s.constraints ↔ S a) :
    HostOutcome I g name width arguments destination S (some (.externalCallsDisallowed name)) s
  /-- An argument has several values, and none of them may be chosen. -/
  | unknown {s : State} {e : Expr} (hallowed : g.executor.config.allowExternalCalls = true)
    (hconfig : g.executor.config.allowSymbolicExternalArguments = false) (he : e ∈ arguments)
    (hmany : ¬Determined S e) (hsolves : ∀ a, I.Solves a s.constraints ↔ S a) :
    HostOutcome I g name width arguments destination S (some (.symbolicExternalArgument name)) s
  /-- The function is called, and the host may have answered other calls since. Only the solutions for which the
  arguments have the values it gets are left. -/
  | called {s : State} {calls : List HostCall} {values : List Nat} (hcalls : g.executor.host.calls <:+ calls)
    (hallowed : g.executor.config.allowExternalCalls = true)
    (hfixed : g.executor.config.allowSymbolicExternalArguments = true ∨ ∀ e ∈ arguments, Determined S e)
    (hsatisfiable : I.Satisfiable s.constraints)
    (hsolves : ∀ a, I.Solves a s.constraints ↔ S a ∧ arguments.map a.val = values)
    (hreturned : g.hostError? calls name width destination values = none → ∃ result,
      (g.hostCall calls name values).1 = .ok result ∧
        g.state.Returned result (g.hostCall calls name values).2 width destination s) :
    HostOutcome I g name width arguments destination S (g.hostError? calls name width destination values) s

section

variable {k : Focus σ} (hcallable : Callable g arguments destination) (hpart : g.Portion I h)
include hcallable hpart

theorem ends_takeReturn {result : Option Nat} {image : HostMemory} {memory : AddressSpace} {epoch : Nat}
    (htried : h.Tried I k none) (hdata : g.state.SameData k.state)
    (hwidth : ∀ w, width = some w → 0 < w ∧ w ≤ 64)
    (hmemory : { g.state.memory with epoch }.copyIn image = .ok (true, memory))
    (hmissing : destination.isSome ∧ width = none →
      Q (some .missingReturnValue) { k.state with memory })
    (hreturned : ¬(destination.isSome ∧ width = none) → ∀ s, s.constraints = k.state.constraints →
      g.state.Returned result image width destination s → Q none s) : (do
      updateState fun s ↦ return { s with memory }
      match destination, width with
      | none, _ => return
      | some _, none => fail .missingReturnValue
      | some r, some width => write r (← Expr.constant (result.getD 0) width) : Exec σ Unit).Ends F k fun r f' ↦
        ∃ error, r = report h.executor.location error ∧ h.Tried I f' error ∧ Q error f'.state := by
  have hdata' : ({ g.state with memory } : State).SameData { k.state with memory } :=
    ⟨hdata.threads_eq, hdata.current_eq, hdata.nextThreadId_eq, hdata.waitLists_eq, hdata.nextWaitList_eq, rfl,
      hdata.pool_eq, hdata.symbolics_eq⟩
  have htried' : h.Tried I { k with state := { k.state with memory } } none := htried.withState rfl rfl
  refine ends_seq (ends_updateState (Checked.ends_pure ?_))
  cases destination with
  | none =>
    exact ends_pure ⟨none, rfl, htried', hreturned (by simp) _ rfl
      ⟨⟨epoch, memory, hmemory, rfl⟩, fun _ ↦ hdata', by simp⟩⟩
  | some r =>
    cases width with
    | none =>
      exact ends_fail (exists_refused hcallable hpart htried' hdata.threads_eq hdata.current_eq (by decide)
        (hmissing (by simp)))
    | some w =>
      have hconstant := Expr.constant_eq_ok.2 ⟨hwidth w rfl, (rfl : Expr.word (result.getD 0) w = _)⟩
      have hregister : ({ g.state with memory } : State).HasRegister r := hcallable.register r rfl
      obtain ⟨s, hs, hid, hconstraints, hloaded⟩ := hregister.exists_write hdata' (.word (result.getD 0) w)
      refine ends_seq (ends_lift (Checked.ends_of_eq hconstant ?_))
      refine ends_updateState (Checked.ends_of_eq hs ⟨none, rfl, htried'.withState hid hconstraints, ?_⟩)
      have hkept : s.memory = memory := State.memory_of_write hs
      refine hreturned (by simp) s hconstraints ⟨⟨epoch, memory, hmemory, by rw [hkept]⟩, by simp, ?_⟩
      rintro _ _ ⟨⟩ ⟨⟩
      rw [hkept]
      exact hloaded

theorem tries_callHost (hunrestrained : g.executor.Unrestrained I)
    (hwidth : ∀ w, width = some w → 0 < w ∧ w ≤ 64) :
    (callHost name width arguments destination).Tries I F h
      (HostOutcome I g name width arguments destination (I.Solves · h.state.constraints)) := by
  have hconfig := hpart.continues.config_eq
  refine ends_bind_ok rfl ?_
  dsimp only
  cases hallowed : g.executor.config.allowExternalCalls with
  | false =>
    rw [hconfig, hallowed, if_neg (by decide)]
    exact ends_seq (ends_fail (exists_refused hcallable hpart hpart.tried hpart.data.threads_eq
      hpart.data.current_eq ⟨rfl, by simp [ExecError.kind]⟩ (.disallowed hallowed fun _ ↦ .rfl)))
  | true =>
    rw [hconfig, hallowed, if_pos rfl]
    refine ends_seq (ends_hostArguments hpart.valid hpart.satisfiable
      (hpart.continues.solver.backend_eq ▸ hunrestrained.exact) hcallable.wellFormed
      (hpart.continues.seeds_eq ▸ hunrestrained.seeds _)
      (fun values solver c hsame hc hsat hsolves hfixed ↦ ?_)
      fun solver c hsame hc hsat hsolves hsymbolic hmany ↦ ?_)
    · have hhost := hpart.continues.host
      generalize hbefore : h.executor.host.calls = calls
      have hcalls : g.executor.host.calls <:+ calls := hbefore ▸ hhost.calls
      have hdata : g.state.SameData (h.narrowed solver c).state :=
        hpart.data.trans ⟨rfl, rfl, rfl, rfl, rfl, rfl, rfl, rfl⟩
      have hlist : h.state.memory.toList = g.state.memory.toList := congrArg AvlMap.values hpart.data.objects_eq
      have hcall : ((h.narrowed solver c).executor.host.call
          ⟨name, values, (h.narrowed solver c).state.memory.copyOut {}⟩).1 = g.hostCall calls name values := by
        rw [Focus.hostCall, AddressSpace.copyOut, AddressSpace.copyOut, ← hlist, ← hhost.answer_eq, ← hbefore]
        rfl
      have htried := (Focus.tried_narrowed (f := h) hsame hc hsat).withHost
        ⟨name, values, (h.narrowed solver c).state.memory.copyOut {}⟩
      have hout : ∀ s : State, s.constraints = c →
          (g.hostError? calls name width destination values = none → ∃ result,
            (g.hostCall calls name values).1 = .ok result ∧
              g.state.Returned result (g.hostCall calls name values).2 width destination s) →
          HostOutcome I g name width arguments destination (I.Solves · h.state.constraints)
            (g.hostError? calls name width destination values) s := by
        rintro s rfl hreturned
        exact .called hcalls hallowed (hconfig ▸ hfixed) hsat hsolves hreturned
      refine ends_bind_ok rfl (ends_bind_ok rfl ?_)
      refine ends_seq (ends_modifyExecutor ?_)
      simp only [hcall]
      cases hresult : (g.hostCall calls name values).1 with
      | error _ =>
        have herror : g.hostError? calls name width destination values = some (.externalCallFailed name) := by
          rw [Focus.hostError?, hresult]
        rw [herror] at hout
        exact ends_fail (exists_refused (e := .externalCallFailed name) hcallable hpart htried hdata.threads_eq
          hdata.current_eq ⟨rfl, by simp [ExecError.kind]⟩ (hout _ rfl (by simp)))
      | ok result =>
        obtain ⟨m, hm⟩ := (hcallable.memory.of_objects_eq hpart.data.objects_eq).exists_copyIn
          (g.hostCall calls name values).2
        have hmemory : ({ g.state.memory with epoch := h.state.memory.epoch } : AddressSpace) = h.state.memory := by
          dsimp only
          rw [← hpart.data.objects_eq]
        rw [hlist] at hm
        refine ends_bind_ok rfl (ends_seq (ends_lift (Checked.ends_of_eq hm ?_)))
        cases hchanges : (AddressSpace.changes (g.hostCall calls name values).2 g.state.memory.toList).isSome with
        | false =>
          have herror : g.hostError? calls name width destination values = some .externalModifiedReadOnly := by
            rw [Focus.hostError?, hresult, hchanges]
            rfl
          rw [herror] at hout
          exact ends_seq (ends_fail (exists_refused (e := .externalModifiedReadOnly) hcallable hpart htried
            hdata.threads_eq hdata.current_eq (by decide) (hout _ rfl (by simp))))
        | true =>
          rw [hchanges, ← hmemory] at hm
          have herror : g.hostError? calls name width destination values =
              if destination.isSome ∧ width = none then some .missingReturnValue else none := by
            rw [Focus.hostError?, hresult, hchanges]
            rfl
          rw [herror] at hout
          refine ends_takeReturn hcallable hpart htried hdata hwidth hm (fun hmissing ↦ ?_)
            fun hpresent s hs hreturned ↦ ?_
          · rw [if_pos hmissing] at hout
            exact hout _ rfl (by simp)
          · rw [if_neg hpresent] at hout
            exact hout s hs fun _ ↦ ⟨result, hresult, hreturned⟩
    · obtain ⟨e, he, hmany⟩ := hmany
      exact exists_refused (e := .symbolicExternalArgument name) hcallable hpart
        (Focus.tried_narrowed hsame hc hsat) hpart.data.threads_eq hpart.data.current_eq
        ⟨rfl, by simp [ExecError.kind]⟩ (HostOutcome.unknown hallowed (hconfig ▸ hsymbolic) he hmany hsolves)

end

end Exec

end Symex
