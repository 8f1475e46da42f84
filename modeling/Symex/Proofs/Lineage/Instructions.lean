import Symex.Proofs.Accesses
import Symex.Proofs.Lineage.Jumps

namespace Symex

open Checked

variable {σ α β : Type} {I : Trust} {twins needs quiet : Prop}

/-! ## Threads of a state -/

namespace State

variable {s t : State}

theorem alike_bind {x : Checked State} {k : State → Checked State}
    (hx : Checked.Ends (fun _ ↦ True) x s.Alike)
    (hk : ∀ t : State, Checked.Ends (fun _ ↦ True) (k t) t.Alike) :
    Checked.Ends (fun _ ↦ True) (x >>= k) s.Alike :=
  Checked.ends_bind hx fun t ht ↦ (hk t).mono fun _ hu ↦ ht.trans hu

theorem alike_foldlM {γ : Type} {f : State → γ → Checked State} (l : List γ)
    (hf : ∀ s x, Checked.Ends (fun _ ↦ True) (f s x) s.Alike) :
    Checked.Ends (fun _ ↦ True) (l.foldlM f s) s.Alike :=
  Checked.ends_foldlM (.refl s) fun x _ t ht ↦ (hf t x).mono fun _ hu ↦ ht.trans hu

theorem alike_scheduleNext (s : State) (thread : ThreadId) :
    Checked.Ends (fun _ ↦ True) (s.scheduleNext thread) s.Alike :=
  Checked.ends_bind (ends_any _) fun _ _ ↦ Checked.ends_bind (ends_any _) fun _ _ ↦
    Checked.ends_pure ⟨rfl, rfl, rfl⟩

theorem alike_terminateThread (s : State) (thread : ThreadId) :
    Checked.Ends (fun _ ↦ True) (s.terminateThread thread) s.Alike := by
  unfold terminateThread
  split
  · exact Checked.ends_pure (.refl s)
  · exact (alike_unbindAll _ _).mono fun _ h ↦ ⟨h.id_eq, h.path_eq, h.constraints_eq⟩

theorem alike_sleep (s : State) (list : WaitListId) :
    Checked.Ends (fun _ ↦ True) (s.sleep list) s.Alike :=
  alike_bind (s.alike_modifyThread _) fun _ ↦ Checked.ends_pure ⟨rfl, rfl, rfl⟩

theorem alike_popFrame (s : State) :
    Checked.Ends (fun _ ↦ True) s.popFrame fun p ↦ s.Alike p.2 := by
  refine Checked.ends_bind (ends_any _) fun t _ ↦ ?_
  split
  · exact Checked.ends_pure (.refl s)
  · exact Checked.ends_bind (alike_unbindAll _ _) fun _ h ↦
      Checked.ends_pure ⟨h.id_eq, h.path_eq, h.constraints_eq⟩

end State

namespace Exec

/-! ## Threads -/

theorem stays_setState_bind {focus : Focus σ} {s : State} {k : Unit → Exec σ β} (hs : focus.state.Alike s)
    (hk : (k ()).Stays I quiet) : (setState s >>= k).Ends (fun _ ↦ True) focus fun _ f ↦
      focus.Solo I f ∧ (quiet → f.executor.removed = focus.executor.removed) := by
  have hset : focus.Solo I { focus with state := s } := .of_quiet (.refl _) hs
  exact ends_bind_ok rfl ((hk { focus with state := s }).mono fun _ _ h ↦ ⟨hset.trans h.1, h.2⟩)

theorem stays_switchTo (thread : ThreadId) (preempts : Bool) :
    (switchTo thread preempts : Exec σ Unit).Stays I quiet :=
  stays_updateState fun _ ↦ (State.alike_scheduleNext _ thread).mono fun _ h ↦
    ⟨h.id_eq, h.path_eq, h.constraints_eq⟩

theorem goes_branch_true (htwins : twins) {conditions : List Expr} (h : ∀ e ∈ conditions, e = .bool true) :
    (branch conditions : Exec σ _).Goes I twins True False := fun focus hf ht _ hgoing ↦ by
  refine (ends_branch_makes ht (hgoing trivial) hf.state.valid (fun e he ↦ ?_) fun hnot ↦
    absurd htwins hnot).mono fun _ _ h ↦ ⟨h.mono False.elim, nofun⟩
  rw [h e he]
  exact ⟨Expr.bool_wellFormed true, rfl⟩

theorem goes_schedule (yields : Bool) : (schedule yields : Exec σ Unit).Goes I twins True False := by
  intro focus hf ht hschedule hgoing
  refine ends_bind_ok rfl (ends_bind_ok rfl ?_)
  dsimp only
  split
  · exact (stays_fail_bind _).ending focus hf ht hschedule hgoing
  · have hswitch (thread : ThreadId) : (switchTo thread false : Exec σ Unit).Goes I twins True False :=
      (stays_switchTo _ _).ending
    split
    · rename_i hfork
      have htrue : ∀ e ∈ focus.state.enabledThreads.map fun _ ↦ Expr.bool true, e = .bool true := by simp
      refine goes_bind (keeps_branch_true htrue) (goes_branch_true (hschedule hfork.1) htrue) (fun arms _ ↦ ?_)
        focus hf ht hschedule hgoing
      refine goes_bind_pure (goes_forIn ?_ ?_)
      · rintro ⟨arm, thread⟩ -
        exact keeps_bind (keeps_onSide arm (keeps_switchTo _ _)) fun _ _ ↦ keeps_pure rfl
      · rintro ⟨arm, thread⟩ -
        exact goes_bind_pure (goes_onSide arm (keeps_switchTo _ _) (stays_switchTo _ _).ending)
    · split
      · exact hswitch _ focus hf ht hschedule hgoing
      · split
        · exact (stays_fail _).ending focus hf ht hschedule hgoing
        · exact hswitch _ focus hf ht hschedule hgoing

theorem stays_knownArgument (argument : Expr) (intrinsic : String) :
    (knownArgument argument intrinsic : Exec σ Nat).Stays I quiet := by
  refine stays_bind (stays_toUnique _) fun v ↦ ?_
  split
  · exact stays_pure _
  · exact stays_fail _

theorem stays_createThread (function argument : Expr) (destination : Option Register) :
    (createThread function argument destination : Exec σ Unit).Stays I quiet := by
  refine stays_bind (stays_knownArgument _ _) fun address ↦ stays_bind stays_executor fun e ↦ ?_
  dsimp only
  split
  · exact stays_fail _
  · rename_i id _
    refine stays_bind (stays_lift _) fun callee ↦ ?_
    split
    · exact stays_fail_bind _
    · intro focus
      refine ends_bind_ok rfl ?_
      have hend : ∀ {s : State}, focus.state.Alike s → (do
          setState s
          writeResult destination (← Expr.constant (focus.state.createThread id callee.registers).1 64) :
            Exec σ Unit).Ends (fun _ ↦ True) focus fun _ f ↦
              focus.Solo I f ∧ (quiet → f.executor.removed = focus.executor.removed) := fun hs ↦
        stays_setState_bind hs (stays_bind (stays_lift _) fun _ ↦ stays_writeResult _ _)
      split
      · split
        · refine ends_bind (P := fun _ f ↦ focus = f) (ends_lift ((ends_any _).mono fun _ _ ↦ rfl)) ?_
            (by rintro _ _ rfl; exact ⟨.refl I _, fun _ ↦ rfl⟩)
          rintro t _ rfl
          exact ends_bind_ok rfl (hend ⟨rfl, rfl, rfl⟩)
        · exact ends_bind_ok rfl (hend ⟨rfl, rfl, rfl⟩)
      · exact ends_bind_ok rfl (hend ⟨rfl, rfl, rfl⟩)

theorem goes_exitThread : (exitThread : Exec σ Unit).Goes I twins True False := by
  refine goes_bind (keeps_updateState fun s hs ↦ hs.safe_terminateThread _)
    (stays_updateState fun s ↦ s.alike_terminateThread _).goes fun _ _ ↦ ?_
  refine goes_bind keeps_state stays_state.goes fun s _ ↦ ?_
  split
  · exact (stays_terminateWith _ _).ending
  · exact goes_schedule _

theorem goes_sleep {list : Expr} (h : list.WellFormed) :
    (sleep list : Exec σ Unit).Goes I twins True False :=
  goes_bind (keeps_knownArgument h _) (stays_knownArgument _ _).goes fun _ _ ↦
    goes_bind (keeps_updateState fun _ hs ↦ hs.safe_sleep _)
      (stays_updateState fun s ↦ s.alike_sleep _).goes fun _ _ ↦ goes_schedule _

theorem stays_notify (list : Expr) (all : Bool) : (notify list all : Exec σ Unit).Stays I quiet := by
  refine stays_bind (stays_knownArgument _ _) fun list ↦ ?_
  split
  · exact stays_updateState fun _ ↦ Checked.ends_pure ⟨rfl, rfl, rfl⟩
  · refine stays_bind stays_state fun s ↦ ?_
    split
    · exact stays_updateState fun _ ↦ Checked.ends_pure ⟨rfl, rfl, rfl⟩
    · exact stays_pure _

/-! ## Floating point -/

section

variable {lhs rhs value : Expr}

theorem goes_floatOperand (h : value.WellFormed) :
    (floatOperand value : Exec σ _).Goes I twins needs needs :=
  goes_bind_pure (goes_toConstant h)

theorem stays_floatFormat (width : Nat) : (floatFormat width : Exec σ _).Stays I quiet := by
  unfold floatFormat
  split
  · exact stays_pure _
  · exact stays_fail _

theorem stays_writeConstant (r : Register) (value width : Nat) :
    (do write r (← Expr.constant value width) : Exec σ Unit).Stays I quiet :=
  stays_bind (stays_lift _) fun _ ↦ stays_write r _

theorem goes_floatBinary (op : FloatOp) (hl : lhs.WellFormed) (hr : rhs.WellFormed) (r : Register) :
    (floatBinary op lhs rhs r : Exec σ Unit).Goes I twins needs needs := by
  refine goes_bind (keeps_floatOperand hl) (goes_floatOperand hl) fun a _ ↦ ?_
  refine goes_bind (keeps_floatOperand hr) (goes_floatOperand hr) fun b _ ↦ ?_
  dsimp only
  split
  · exact (stays_fail_bind _).goes
  · exact (stays_bind (stays_floatFormat _) fun _ ↦ stays_bind stays_executor fun _ ↦
      stays_writeConstant _ _ _).goes

theorem goes_floatCompare (p : FloatPredicate) (hl : lhs.WellFormed) (hr : rhs.WellFormed) (r : Register) :
    (floatCompare p lhs rhs r : Exec σ Unit).Goes I twins needs needs :=
  goes_bind (keeps_floatOperand hl) (goes_floatOperand hl) fun _ _ ↦
    goes_bind (keeps_floatOperand hr) (goes_floatOperand hr) fun _ _ ↦
      (stays_bind (stays_floatFormat _) fun _ ↦ stays_bind (stays_floatFormat _) fun _ ↦
        stays_write r _).goes

theorem goes_floatCast (op : FloatCastOp) (h : value.WellFormed) (width : Nat) (r : Register) :
    (floatCast op value width r : Exec σ Unit).Goes I twins needs needs := by
  refine goes_bind (keeps_floatOperand h) (goes_floatOperand h) fun p _ ↦ ?_
  have hformat (w : Nat) (f : Ieee.Format → Nat) :
      (do write r (← Expr.constant (f (← floatFormat w)) width) : Exec σ Unit).Stays I True :=
    stays_bind (stays_floatFormat w) fun _ ↦ stays_writeConstant _ _ _
  cases op with
  | narrow => exact (stays_bind (stays_floatFormat _) fun _ ↦ hformat _ _).goes
  | widen => exact (stays_bind (stays_floatFormat _) fun _ ↦ hformat _ _).goes
  | toUnsigned => exact (hformat _ _).goes
  | toSigned => exact (hformat _ _).goes
  | ofUnsigned => exact (hformat _ _).goes
  | ofSigned => exact (stays_bind (stays_lift _) fun _ ↦ hformat _ _).goes

end

/-! ## Calls -/

theorem stays_storeVarargs (arguments : List Expr) :
    (storeVarargs arguments : Exec σ MemoryObject).Stays I quiet := by
  intro focus
  refine ends_bind_ok rfl ?_
  dsimp only
  split
  · exact stays_fail _ focus
  · refine stays_set_bind ⟨⟨rfl, rfl, rfl, rfl, rfl, rfl, id⟩, rfl, rfl, rfl, rfl⟩ ⟨rfl, rfl, rfl⟩ ?_
    refine stays_bind (stays_lift _) fun contents ↦ stays_bind (stays_foldlM ?_) fun contents ↦ ?_
    · rintro ⟨argument, slot⟩ - contents
      exact stays_bind (stays_lift _) fun _ ↦ stays_lift _
    · exact stays_bind (stays_updateState fun s ↦ s.alike_withMemory _) fun _ ↦ stays_pure _

theorem goes_hostArgument (name : String) {argument : Expr} (h : argument.WellFormed) :
    (hostArgument name argument : Exec σ Nat).Goes I twins needs needs := by
  refine goes_bind (keeps_toUnique h) (stays_toUnique _).goes fun v hv ↦ ?_
  split
  · exact (stays_pure _).goes
  · refine goes_bind keeps_executor stays_executor.goes fun e _ ↦ ?_
    split
    · exact goes_bind_pure (goes_toConstant hv.1)
    · exact (stays_fail _).goes

theorem stays_enterFrame (id : FunctionId) (callee : Function) (arguments : List Expr)
    (destination : Option Register) (varargs : Option MemoryObject) : (do
      let caller : CallSite := ⟨(← executor).location, destination⟩
      updateState fun s ↦ do
        let s ← s.pushFrame (some caller) id callee.registers
        let s ← (arguments.take callee.parameters).zipIdx.foldlM
          (fun s (argument, i) ↦ s.write i argument) s
        let s ← s.modifyFrame fun f ↦ return { f with varargs }
        s.modifyThread fun t ↦ return { t with pc := .entry id, incoming := none } :
          Exec σ Unit).Stays I quiet := by
  refine stays_bind stays_executor fun e ↦ stays_updateState fun s ↦ ?_
  refine State.alike_bind (s.alike_modifyThread _) fun s ↦ ?_
  refine State.alike_bind (State.alike_foldlM _ fun s p ↦ s.alike_write _ _) fun s ↦ ?_
  exact State.alike_bind (s.alike_modifyFrame _) fun s ↦ s.alike_modifyThread _

theorem stays_enter (id : FunctionId) (callee : Function) (arguments : List Expr)
    (destination : Option Register) :
    (enter id callee arguments destination : Exec σ Unit).Stays I quiet := by
  unfold enter
  dsimp only
  split
  · exact stays_fail_bind _
  · split
    · refine stays_bind ?_ fun varargs ↦ stays_enterFrame id callee arguments destination varargs
      rw [map_eq_pure_bind]
      exact stays_bind (stays_storeVarargs _) fun _ ↦ stays_pure _
    · exact stays_bind (stays_pure _) fun varargs ↦ stays_enterFrame id callee arguments destination varargs

section

variable {arguments : List Expr} (harguments : ∀ e ∈ arguments, e.WellFormed)
include harguments

theorem goes_callHost (name : String) (resultWidth : Option Nat) (destination : Option Register) :
    (callHost name resultWidth arguments destination : Exec σ Unit).Goes I twins needs needs := by
  refine goes_bind keeps_executor stays_executor.goes fun e _ ↦ ?_
  dsimp only
  split
  · have hvalue := fun a ha ↦ keeps_hostArgument (σ := σ) (I := I) name (harguments a ha)
    refine goes_bind (keeps_mapM hvalue) (goes_mapM hvalue fun a ha ↦ goes_hostArgument name
      (harguments a ha)) fun values _ ↦ Stays.goes ?_
    refine stays_bind stays_state fun s ↦ stays_bind stays_executor fun e ↦ ?_
    refine stays_bind (stays_modifyExecutor fun _ ↦ ⟨⟨rfl, rfl, rfl, rfl, rfl, rfl, id⟩, rfl, rfl, rfl, rfl⟩)
      fun _ ↦ ?_
    split
    · exact stays_fail _
    · refine stays_bind stays_state fun s ↦ stays_bind (stays_lift _) fun p ↦ ?_
      split
      · refine stays_bind (stays_updateState fun s ↦ Checked.ends_pure ⟨rfl, rfl, rfl⟩) fun _ ↦ ?_
        split
        · exact stays_pure _
        · exact stays_fail _
        · exact stays_writeConstant _ _ _
      · exact stays_fail_bind _
  · exact (stays_fail_bind _).goes

theorem goes_call (id : FunctionId) (destination : Option Register) :
    (call id arguments destination : Exec σ Unit).Goes I twins needs needs := by
  refine goes_bind keeps_executor stays_executor.goes fun e _ ↦ ?_
  refine goes_bind (keeps_lift (e.program.safe_function id)) (stays_lift _).goes fun callee _ ↦ ?_
  split
  · exact goes_callHost harguments _ _ _
  · exact (stays_enter _ _ _ _).goes

theorem goes_callAddress (address : Nat) (destination : Option Register) :
    (callAddress address arguments destination : Exec σ Unit).Goes I twins needs needs := by
  refine goes_bind keeps_executor stays_executor.goes fun e _ ↦ ?_
  split
  · exact (stays_fail _).goes
  · exact goes_call harguments _ _

theorem goes_callEach {pointer : Expr} (hpointer : pointer.WellFormed) (destination : Option Register)
    (fuel resolved : Nat) (free : Option Branch) :
    (callEach pointer arguments destination fuel resolved free : Exec σ Unit).Goes I twins False False := by
  induction fuel generalizing resolved free with
  | zero =>
    cases free with
    | none => exact (stays_pure _).goes
    | some branch => exact (stays_lift _).goes
  | succ fuel ih =>
    cases free with
    | none => exact (stays_pure _).goes
    | some branch =>
      refine goes_bind keeps_executor stays_executor.goes fun e _ ↦ ?_
      dsimp only
      split
      · exact goes_onSide _ (keeps_terminateEarly _) (stays_terminateWith _ _).ending
      · refine goes_bind (keeps_onBranch branch (keeps_value hpointer))
          (goes_onBranch branch (keeps_value hpointer) (stays_query _).ending) fun o ho ↦ ?_
        split
        · rename_i value
          have hcall := keeps_callAddress (σ := σ) (I := I) harguments (value.value?.getD 0) destination
          refine goes_bind (keeps_lift (Expr.safe_mkCompare .eq hpointer (ho value rfl).1))
            (stays_lift _).goes fun same hsame ↦ ?_
          refine goes_bind (keeps_forkOn branch hsame true) (goes_forkOn branch hsame true)
            fun sides _ ↦ ?_
          exact goes_bind (keeps_onSide _ hcall) (goes_onSide _ hcall
            ((goes_callAddress harguments _ _).mono id False.elim)) fun _ _ ↦ ih _ _
        · exact (stays_pure _).goes

theorem goes_callPointer {pointer : Expr} (hpointer : pointer.WellFormed) (destination : Option Register) :
    (callPointer pointer arguments destination : Exec σ Unit).Goes I twins False False :=
  goes_callEach harguments hpointer _ _ _ _

end

theorem goes_ret (value : Option Expr) : (ret value : Exec σ Unit).Goes I twins True False := by
  refine goes_bind keeps_state stays_state.goes fun s hs ↦ ?_
  refine goes_bind (keeps_lift hs.safe_frame) (stays_lift _).goes fun f _ ↦ ?_
  split
  · split
    · exact (stays_terminateWith _ _).ending
    · exact goes_exitThread
  · refine Stays.ending (stays_bind (stays_updateState fun s ↦ ?_) fun _ ↦ ?_)
    · exact Checked.ends_bind s.alike_popFrame fun p hp ↦
        (p.2.alike_modifyThread _).mono fun _ h ↦ hp.trans h
    · split
      · exact stays_pure _
      · exact stays_fail _
      · exact stays_write _ _

/-! ## Operands and arithmetic -/

theorem stays_operand (o : Operand) : (operand o : Exec σ Expr).Stays I quiet := by
  refine stays_bind stays_executor fun e ↦ ?_
  cases o with
  | register r => exact stays_bind stays_state fun s ↦ stays_bind (stays_lift _) fun f ↦ stays_ofExcept _
  | constant c =>
    dsimp only
    split
    · exact stays_pure _
    · exact stays_lift _

theorem stays_pointer (o : Operand) : (pointer o : Exec σ Expr).Stays I quiet :=
  stays_bind (stays_operand o) fun _ ↦ stays_lift _

theorem stays_demandSameWidth (lhs rhs : Expr) : (demandSameWidth lhs rhs : Exec σ Unit).Stays I quiet := by
  unfold demandSameWidth
  split
  · exact stays_fail _
  · exact stays_pure _

section

variable {lhs rhs condition : Expr}

theorem goes_binary (op : BinOp) (hl : lhs.WellFormed) (hr : rhs.WellFormed) (r : Register) :
    (binary op lhs rhs r : Exec σ Unit).Goes I twins True False := by
  have hkeeps : (do write r (← Expr.mkBinary op lhs rhs) : Exec σ Unit).Keeps I fun _ ↦ True :=
    keeps_bind (keeps_lift (Expr.safe_mkBinary op hl hr)) fun _ h ↦ keeps_write r h.1
  have hwrite : (do write r (← Expr.mkBinary op lhs rhs) : Exec σ Unit).Stays I False :=
    stays_bind (stays_lift _) fun _ ↦ stays_write r _
  refine goes_bind keeps_executor stays_executor.goes fun e _ ↦ ?_
  split
  · refine goes_bind (keeps_fork hr.isZero true) (goes_fork hr.isZero true) fun sides _ ↦ ?_
    exact goes_bind (keeps_onSide _ (keeps_fail _)) (goes_onSide _ (keeps_fail _) (stays_fail _).ending)
      fun _ _ ↦ goes_onSide _ hkeeps hwrite.ending
  · exact hwrite.ending

theorem stays_cast (op : CastOp) (value : Expr) (width : Nat) :
    (cast op value width : Exec σ Expr).Stays I quiet := by
  cases op with
  | bitCast =>
    unfold cast
    dsimp only
    split
    · exact stays_pure _
    · exact stays_fail _
  | _ => exact stays_lift _

theorem stays_elementAddress (base : Expr) (indices : List (Operand × Nat)) (offset : Nat) :
    (elementAddress base indices offset : Exec σ Expr).Stays I quiet := by
  refine stays_bind (stays_foldlM ?_) fun address ↦ ?_
  · rintro ⟨index, scale⟩ - address
    exact stays_bind (stays_operand index) fun _ ↦ stays_bind (stays_lift _) fun _ ↦
      stays_bind (stays_lift _) fun _ ↦ stays_lift _
  · split
    · exact stays_pure _
    · exact stays_lift _

/-! ## Intrinsics -/

theorem goes_assume (hcondition : condition.WellFormed) :
    (assume condition : Exec σ Unit).Goes I twins needs needs := by
  refine goes_bind (keeps_lift (Expr.safe_mkTruth hcondition)) (stays_lift _).goes
    fun condition hcondition ↦ ?_
  have hnever : (query (Solver.mustBeFalse · condition) : Exec σ Bool).Keeps I fun _ ↦ True :=
    keeps_query_any fun _ hc hsat ↦ (Solver.answers_mustBeFalse hc hsat hcondition.1).mono fun _ _ ↦ trivial
  refine goes_bind hnever (stays_query _).goes fun never _ ↦ ?_
  split
  · exact (stays_fail_bind _).goes
  · exact goes_addConstraint hcondition

theorem goes_assert (hcondition : condition.WellFormed) (message : String) :
    (assert condition message : Exec σ Unit).Goes I twins True False :=
  goes_bind (keeps_lift (Expr.safe_mkTruth hcondition)) (stays_lift _).goes fun _ h ↦
    goes_bind (keeps_fork h false) (goes_fork h false) fun _ _ ↦
      goes_onSide _ (keeps_fail _) (stays_fail _).ending

end

theorem goes_forkTwice (htwins : twins) (destination : Option Register) :
    (forkTwice destination : Exec σ Unit).Goes I twins True False := by
  have htrue : ∀ e ∈ [Expr.bool true, .bool true], e = .bool true := by simp
  have hkeeps (i : Nat) : (do
      writeResult destination (← Expr.constant i 32) : Exec σ Unit).Keeps I fun _ ↦ True :=
    keeps_bind (keeps_lift (Expr.safe_constant _ _)) fun _ h ↦ keeps_writeResult _ h.1
  refine goes_bind (keeps_branch_true htrue) (goes_branch_true htwins htrue) fun arms _ ↦ ?_
  refine goes_bind_pure (goes_forIn ?_ ?_)
  · rintro ⟨arm, i⟩ -
    exact keeps_bind (keeps_onSide arm (hkeeps i)) fun _ _ ↦ keeps_pure rfl
  · rintro ⟨arm, i⟩ -
    exact goes_bind_pure (goes_onSide arm (hkeeps i)
      (stays_bind (stays_lift _) fun _ ↦ stays_writeResult _ _).ending)

theorem goes_intrinsic (i : Intrinsic) {arguments : List Expr} (harguments : ∀ e ∈ arguments, e.WellFormed)
    (destination : Option Register) (htwins : i = .fork → twins) :
    (intrinsic i arguments destination : Exec σ Unit).Goes I twins True False := by
  unfold intrinsic
  -- in the order in which the intrinsics are listed there
  have hone {e : Expr} (h : ∀ x ∈ [e], x.WellFormed) : e.WellFormed := List.forall_mem_singleton.1 h
  have htwo {e f : Expr} (h : ∀ x ∈ [e, f], x.WellFormed) : e.WellFormed ∧ f.WellFormed := by
    simpa using h
  split
  · exact goes_allocateSized (hone harguments) _ _ _
  · refine goes_bind (keeps_lift (Expr.safe_mkZext 64 (htwo harguments).1)) (stays_lift _).goes
      fun count hcount ↦ ?_
    refine goes_bind (keeps_lift (Expr.safe_mkZext 64 (htwo harguments).2)) (stays_lift _).goes
      fun size hsize ↦ ?_
    exact goes_bind (keeps_lift (Expr.safe_mkBinary .mul hcount.1 hsize.1)) (stays_lift _).goes fun _ h ↦
      goes_allocateSized h.1 _ _ _
  · exact goes_reallocate (htwo harguments).1 (htwo harguments).2 _
  · exact goes_free (hone harguments) _
  · exact (goes_makeSymbolic _ (htwo harguments).1 (htwo harguments).2).mono nofun id
  · exact (goes_assume (hone harguments)).mono id False.elim
  · exact goes_assert (hone harguments) _
  · exact (stays_fail _).ending
  · exact (stays_terminateWith _ _).ending
  · exact goes_forkTwice (htwins rfl) _
  · refine Stays.ending (stays_bind (stays_knownArgument _ _) fun enabled ↦ stays_updateState fun s ↦ ?_)
    exact Checked.ends_pure ⟨rfl, rfl, rfl⟩
  · exact (stays_createThread _ _ _).ending
  · exact goes_exitThread
  · exact goes_schedule _
  · exact goes_sleep (hone harguments)
  · exact (stays_notify _ _).ending
  · refine Stays.ending fun focus ↦ ends_bind_ok rfl ?_
    exact stays_setState_bind ⟨rfl, rfl, rfl⟩ (stays_bind (stays_lift _) fun _ ↦ stays_writeResult _ _)
  · exact (stays_fail _).ending

end Exec

/-! ## Instructions -/

def State.operand? (s : State) (constants : Array Expr) : Operand → Option Expr
  | .register r => s.register? r
  | .constant c => constants[c]?

theorem Checked.ofOption_eq_ok {o : Option α} {a : α} : ofOption o = .ok a ↔ o = some a := by
  cases o with
  | none => simp [ofOption]
  | some b => simp [ofOption]

theorem State.register?_of_frame {s : State} {top : Frame} (h : s.frame = .ok top) (r : Register) :
    s.register? r = top.read? r := by
  obtain ⟨t, ht, htop⟩ := bind_eq_ok.1 h
  have ht : s.thread? s.current = some t := ofOption_eq_ok.1 ht
  have htop : t.stack.head? = some top := ofOption_eq_ok.1 htop
  unfold register?
  rw [ht]
  change (t.stack.head?).bind _ = _
  rw [htop]
  rfl

theorem State.register?_advance {s s' : State} (h : s.modifyThread (fun t ↦ return t.advance) = .ok s')
    (r : Register) : s'.register? r = s.register? r := by
  obtain ⟨t, ht, h⟩ := bind_eq_ok.1 h
  have ht : s.thread? s.current = some t := ofOption_eq_ok.1 ht
  have hid : t.id = s.current := by simpa using List.find?_some ht
  obtain rfl : s.setThread t.advance = s' := pure_eq_ok.1 h
  have hnew : (s.setThread t.advance).thread? s.current = some t.advance :=
    hid ▸ thread?_setThread (t := t.advance) (by rw [show t.advance.id = s.current from hid, ht]; rfl)
  change (((s.setThread t.advance).thread? s.current).bind fun t ↦ t.stack.head?.bind fun f ↦ f.read? r) =
    (s.thread? s.current).bind fun t ↦ t.stack.head?.bind fun f ↦ f.read? r
  rw [hnew, ht]
  rfl

namespace Instruction

/-- The instruction asks for a copy of the state. -/
def copies : Instruction → Bool
  | .call (.intrinsic .fork) _ _ => true
  | _ => false

def switch? : Instruction → Option (Operand × List (Nat × BlockId))
  | .switch condition _ cases => some (condition, cases)
  | _ => none

/-- The instruction does not divide a state into parts with solutions in common: it asks for no copy, and if
it is a switch then no two of its targets go with one value. -/
def Plain (i : Instruction) (value? : Operand → Option Expr) : Prop :=
  i.copies = false ∧ ∀ p ∈ i.switch?, ∀ e ∈ value? p.1, Apart e.width p.2

instance (i : Instruction) (value? : Operand → Option Expr) : Decidable (i.Plain value?) :=
  inferInstanceAs (Decidable (_ ∧ ∀ p ∈ i.switch?, ∀ e ∈ value? p.1, Apart e.width p.2))

end Instruction

/-- The next instruction of the state is a plain one. -/
def State.Plain (s : State) (program : Program) (constants : Array Expr) : Prop :=
  ∀ t ∈ s.thread? s.current, ∀ i ∈ program.instruction? t.pc, i.Plain (s.operand? constants)

instance (s : State) (program : Program) (constants : Array Expr) : Decidable (s.Plain program constants) :=
  inferInstanceAs (Decidable (∀ t ∈ s.thread? s.current, ∀ i ∈ program.instruction? t.pc, _))

theorem Program.instruction_eq_ok {p : Program} {l : Location} {i : Instruction} :
    p.instruction l = .ok i ↔ p.instruction? l = some i := by
  unfold instruction
  split <;> simp [*]

/-- The state is about to execute an instruction, and has only gone on to the one after it. -/
structure Focus.Executes (I : Trust) (f g : Focus σ) : Prop where
  solo : f.Solo I g
  sound : g.Sound I
  removed_eq : g.executor.removed = f.executor.removed
  config_eq : g.executor.config = f.executor.config
  operand_eq : g.state.operand? g.executor.constants = f.state.operand? f.executor.constants

namespace Exec

variable {focus : Focus σ}

theorem ends_operand (o : Operand) : (operand o : Exec σ Expr).Ends (fun _ ↦ True) focus fun r f ↦
    focus = f ∧ focus.state.operand? focus.executor.constants o = r.toOption := by
  refine ends_bind_ok rfl ?_
  cases o with
  | register r =>
    refine ends_bind_ok rfl (ends_bind (P := fun r' f ↦ focus = f ∧ ∃ top, r' = .ok top ∧
      focus.state.register? r = top.read? r) (ends_lift (ends_true_iff.2 fun top htop ↦
        ⟨rfl, top, rfl, State.register?_of_frame htop r⟩)) ?_ (by rintro _ _ ⟨-, _, ⟨⟩, -⟩))
    rintro top _ ⟨rfl, _, ⟨⟩, htop⟩
    refine ends_ofExcept ⟨rfl, htop.trans ?_⟩
    unfold Frame.read
    split <;> simp [Except.toOption, *]
  | constant c =>
    dsimp only
    split
    · exact ends_pure ⟨rfl, by assumption⟩
    · exact ends_lift (ends_true_iff.2 (by rintro _ ⟨⟩))

theorem ends_instruction_makes (i : Instruction) (hf : focus.Sound I) (ht : focus.Tidy)
    (hschedule : focus.executor.config.forkOnSchedule = true → twins) (hgoing : focus.Going)
    (hplain : ¬twins → i.Plain (focus.state.operand? focus.executor.constants)) :
    (instruction i).Ends (fun _ ↦ True) focus fun r f ↦ focus.Makes I twins (Strayed r) f := by
  -- whether a switch makes twins depends on its operand, so on the state; the others show it themselves
  suffices h : (∀ condition otherwise cases, i ≠ .switch condition otherwise cases) →
      (instruction i : Exec σ Unit).Goes I twins True False by
    by_cases hswitch : ∀ condition otherwise cases, i ≠ .switch condition otherwise cases
    · exact (h hswitch focus hf ht hschedule fun _ ↦ hgoing).mono fun _ _ h ↦ h.1
    · push Not at hswitch
      obtain ⟨condition, otherwise, cases, rfl⟩ := hswitch
      refine ends_bind ((ends_operand condition).and (keeps_operand condition focus hf)) ?_
        (by rintro _ _ ⟨⟨rfl, -⟩, -⟩; exact .refl _)
      rintro value _ ⟨⟨rfl, hvalue⟩, -, hwf⟩
      have hapart (htwins : ¬twins) : Apart value.width cases :=
        (hplain htwins).2 _ rfl value hvalue
      exact (goes_switch (hwf value rfl) otherwise cases hapart focus hf ht hschedule fun _ ↦ hgoing).mono
        fun _ _ h ↦ h.1
  intro hswitch
  unfold instruction
  cases i with
  | ret value =>
    refine goes_bind (R := fun _ ↦ True) ?_ ?_ fun _ _ ↦ goes_ret _
    · cases value with
      | none => exact keeps_pure trivial
      | some o =>
        rw [Option.mapM_some]
        exact keeps_bind (keeps_operand o) fun _ _ ↦ keeps_pure trivial
    · cases value with
      | none => exact (stays_pure _).goes
      | some o =>
        rw [Option.mapM_some]
        exact (stays_bind (stays_operand o) fun _ ↦ stays_pure _).goes
  | br target => exact goes_jump target
  | condBr condition ifTrue ifFalse =>
    refine goes_bind (keeps_operand condition) (stays_operand _).goes fun condition hcondition ↦ ?_
    refine goes_bind (keeps_lift (Expr.safe_mkTruth hcondition)) (stays_lift _).goes
      fun condition hcondition ↦ ?_
    refine goes_bind (keeps_fork hcondition false) (goes_fork hcondition false) fun sides _ ↦ ?_
    exact goes_bind (keeps_onSide _ (keeps_jump ifTrue)) (goes_onSide _ (keeps_jump ifTrue) (goes_jump ifTrue))
      fun _ _ ↦ goes_onSide _ (keeps_jump ifFalse) (goes_jump ifFalse)
  | switch condition otherwise cases => exact absurd rfl (hswitch condition otherwise cases)
  | unreachable => exact (stays_fail _).ending
  | call callee arguments destination =>
    refine goes_bind (keeps_mapM fun o _ ↦ keeps_operand o) (stays_mapM fun o _ ↦ stays_operand o).goes
      fun arguments harguments ↦ ?_
    cases callee with
    | function f => exact (goes_call harguments f destination).mono id False.elim
    | pointer p =>
      exact goes_bind (keeps_pointer p) (stays_pointer p).goes fun _ h ↦
        (goes_callPointer harguments h.1 _).mono nofun id
    | intrinsic i =>
      refine goes_intrinsic i harguments destination ?_
      rintro rfl
      by_contra htwins
      exact nomatch (hplain htwins).1
  | binary op lhs rhs destination =>
    refine goes_bind (keeps_operand lhs) (stays_operand _).goes fun lhs hl ↦ ?_
    refine goes_bind (keeps_operand rhs) (stays_operand _).goes fun rhs hr ↦ ?_
    exact goes_bind (keeps_demandSameWidth lhs rhs) (stays_demandSameWidth _ _).goes fun _ _ ↦
      goes_binary op hl hr destination
  | icmp predicate lhs rhs destination =>
    exact (stays_bind (stays_operand _) fun _ ↦ stays_bind (stays_operand _) fun _ ↦
      stays_bind (stays_demandSameWidth _ _) fun _ ↦ stays_bind (stays_lift _) fun _ ↦
        stays_write _ _).ending
  | select condition ifTrue ifFalse destination =>
    exact (stays_bind (stays_operand _) fun _ ↦ stays_bind (stays_lift _) fun _ ↦
      stays_bind (stays_operand _) fun _ ↦ stays_bind (stays_operand _) fun _ ↦
        stays_bind (stays_demandSameWidth _ _) fun _ ↦ stays_bind (stays_lift _) fun _ ↦
          stays_write _ _).ending
  | cast op value width destination =>
    exact (stays_bind (stays_operand _) fun _ ↦ stays_bind (stays_cast _ _ _) fun _ ↦ stays_write _ _).ending
  | fbinary op lhs rhs destination =>
    exact goes_bind (keeps_operand lhs) (stays_operand _).goes fun _ hl ↦
      goes_bind (keeps_operand rhs) (stays_operand _).goes fun _ hr ↦
        (goes_floatBinary op hl hr destination).mono id False.elim
  | fcmp predicate lhs rhs destination =>
    exact goes_bind (keeps_operand lhs) (stays_operand _).goes fun _ hl ↦
      goes_bind (keeps_operand rhs) (stays_operand _).goes fun _ hr ↦
        (goes_floatCompare predicate hl hr destination).mono id False.elim
  | fcast op value width destination =>
    exact goes_bind (keeps_operand value) (stays_operand _).goes fun _ h ↦
      (goes_floatCast op h width destination).mono id False.elim
  | alloca elementSize count destination =>
    refine goes_bind (keeps_pointer count) (stays_pointer _).goes fun count hcount ↦ ?_
    exact goes_bind (keeps_lift (Expr.safe_mkBinary .mul (Expr.pointer_wellFormed _) hcount.1))
      (stays_lift _).goes fun _ h ↦ goes_allocateSized h.1 _ _ _
  | load address width destination =>
    exact goes_bind (keeps_pointer address) (stays_pointer _).goes fun _ h ↦
      (goes_access (show (Access.load _ _).WellFormed from trivial) h.1).mono nofun id
  | store address value =>
    exact goes_bind (keeps_pointer address) (stays_pointer _).goes fun _ ha ↦
      goes_bind (keeps_operand value) (stays_operand _).goes fun _ hv ↦
        (goes_access (show (Access.store _).WellFormed from hv) ha.1).mono nofun id
  | elementPtr base indices offset destination =>
    exact (stays_bind (stays_pointer _) fun _ ↦ stays_bind (stays_elementAddress _ _ _) fun _ ↦
      stays_write _ _).ending
  | phi incoming destination =>
    refine Stays.ending (stays_bind stays_state fun s ↦ stays_bind (stays_lift _) fun t ↦ ?_)
    dsimp only
    split
    · exact stays_fail _
    · exact stays_bind (stays_operand _) fun _ ↦ stays_write _ _
  | unsupported name => exact (stays_fail _).ending

theorem ends_advance (hf : focus.Sound I) :
    (updateState fun s ↦ { s with steps := s.steps + 1 }.modifyThread fun t ↦ return t.advance :
      Exec σ Unit).Yields focus fun _ f ↦ focus.executor = f.executor ∧
        focus.state.Alike f.state ∧ f.Sound I ∧
          ∀ constants o, f.state.operand? constants o = focus.state.operand? constants o := by
  have hadvance : (updateState fun s ↦ { s with steps := s.steps + 1 }.modifyThread fun t ↦ return t.advance :
      Exec σ Unit).Keeps I fun _ ↦ True := keeps_updateState fun s hs ↦ by
    refine State.Sound.safe_modifyThread ?_ fun t ht ↦ Checked.ends_pure ht
    exact ⟨hs.valid, hs.satisfiable, hs.threads, hs.memory⟩
  refine (Yields.and (Q := fun _ f ↦ focus.executor = f.executor ∧ focus.state.Alike f.state ∧
    ∀ constants o, f.state.operand? constants o = focus.state.operand? constants o) (ends_updateState ?_)
    (hadvance focus hf)).mono fun _ _ h ↦ ⟨h.1.1, h.1.2.1, h.2.1, h.1.2.2⟩
  refine ends_true_iff.2 fun s hs ↦ ⟨(), rfl, rfl, ?_, fun constants o ↦ ?_⟩
  · have h := (State.alike_modifyThread _ _).of_eq hs
    exact ⟨h.id_eq, h.path_eq, h.constraints_eq⟩
  · cases o with
    | register r => exact State.register?_advance hs r
    | constant c => rfl

theorem ends_step {P : Except PathError Unit → Focus σ → Prop} (hf : focus.Sound I)
    (h : ∀ t i f, focus.state.thread? focus.state.current = some t →
      focus.executor.program.instruction? t.pc = some i → focus.Executes I f →
        (tryCatch (instruction i) settle : Exec σ Unit).Ends (fun _ ↦ True) f P) :
    (step : Exec σ Unit).Ends (fun _ ↦ True) focus P := by
  refine ends_bind_ok rfl (yields_bind (Q := fun t f ↦ focus = f ∧
    focus.state.thread? focus.state.current = some t) (ends_lift (ends_true_iff.2 fun t ht ↦
      ⟨t, rfl, rfl, ofOption_eq_ok.1 ht⟩)) ?_)
  rintro t _ ⟨rfl, hthread⟩
  refine yields_bind (ends_advance hf) ?_
  rintro _ ⟨executor, s⟩ ⟨rfl, halike, hf', hoperand⟩
  refine ends_bind_ok rfl (ends_bind_ok rfl ?_)
  let f : Focus σ := ⟨{ focus.executor with
    location := t.pc, statistics.steps := focus.executor.statistics.steps + 1 }, s⟩
  refine yields_bind (Q := fun i g ↦ f = g ∧ focus.executor.program.instruction? t.pc = some i)
    (ends_lift (ends_true_iff.2 fun i hi ↦ ⟨i, rfl, rfl, Program.instruction_eq_ok.1 hi⟩)) ?_
  rintro i _ ⟨rfl, hi⟩
  exact h t i f hthread hi
    { solo := .of_quiet ⟨⟨rfl, rfl, rfl, rfl, rfl, rfl, id⟩, rfl, rfl, rfl, rfl⟩ halike
      sound := ⟨⟨hf'.executor.exact, hf'.executor.constants, hf'.executor.states⟩, hf'.state⟩
      removed_eq := rfl
      config_eq := rfl
      operand_eq := funext fun o ↦ hoperand _ o }

theorem ends_step_makes (hf : focus.Sound I) (ht : focus.Tidy)
    (hschedule : focus.executor.config.forkOnSchedule = true → twins) (hgoing : focus.Going)
    (hplain : ¬twins → focus.state.Plain focus.executor.program focus.executor.constants) :
    (step : Exec σ Unit).Ends (fun _ ↦ True) focus fun r f ↦ focus.Makes I twins (Strayed r) f := by
  refine ends_step hf fun t i f hthread hi hf ↦ ?_
  have hmakes := ends_instruction_makes i hf.sound (hf.solo.toOwn.succeeds ht).tidy (hf.config_eq ▸ hschedule)
    (own_going hf.solo.toOwn hf.removed_eq hgoing) fun htwins ↦ hf.operand_eq ▸ hplain htwins t hthread i hi
  exact ends_tryCatch hmakes (fun _ _ h ↦ hf.solo.makes.trans h) fun e g h ↦ ends_settle_makes (hf.solo.makes.trans h)

end Exec

end Symex
