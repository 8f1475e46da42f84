import Symex.Proofs.Feasibility.Objects

namespace Symex

open Checked

variable {σ α β : Type} {I : Trust}

namespace Exec

/-! ## Threads -/

theorem keeps_switchTo (thread : ThreadId) (preempts : Bool) :
    (switchTo thread preempts : Exec σ Unit).Keeps I fun _ ↦ True :=
  keeps_updateState fun _ hs ↦ by
    apply State.Sound.safe_scheduleNext
    exact ⟨hs.valid, hs.satisfiable, hs.threads, hs.memory⟩

theorem keeps_schedule (yields : Bool) : (schedule yields : Exec σ Unit).Keeps I fun _ ↦ True := by
  refine keeps_bind keeps_state fun s _ ↦ keeps_bind keeps_executor fun e _ ↦ ?_
  dsimp only
  split
  · exact keeps_fail_bind _
  · split
    · refine keeps_bind (keeps_branch_true (by simp)) fun arms _ ↦ ?_
      refine keeps_bind (keeps_forIn ?_) fun _ _ ↦ keeps_pure trivial
      rintro ⟨arm, thread⟩ -
      exact keeps_bind (keeps_onSide arm (keeps_switchTo _ _)) fun _ _ ↦ keeps_pure rfl
    · split
      · exact keeps_switchTo _ _
      · split
        · exact keeps_fail _
        · exact keeps_switchTo _ _

theorem keeps_knownArgument {argument : Expr} (h : argument.WellFormed) (intrinsic : String) :
    (knownArgument argument intrinsic : Exec σ Nat).Keeps I fun _ ↦ True := by
  refine keeps_bind (keeps_toUnique h) fun v _ ↦ ?_
  split
  · exact keeps_pure trivial
  · exact keeps_fail _

theorem keeps_createThread {function argument : Expr} (hf : function.WellFormed)
    (ha : argument.WellFormed) (destination : Option Register) :
    (createThread function argument destination : Exec σ Unit).Keeps I fun _ ↦ True := by
  refine keeps_bind (keeps_knownArgument hf _) fun address _ ↦ keeps_bind keeps_executor fun e _ ↦ ?_
  dsimp only
  split
  · exact keeps_fail _
  · rename_i id _
    refine keeps_bind (keeps_lift (e.program.safe_function id)) fun callee _ ↦ ?_
    split
    · exact keeps_fail_bind _
    · refine keeps_bind keeps_state fun s hs ↦ ?_
      have hs' := hs.createThread id callee.registers
      have hend : ∀ {s' : State}, s'.Sound I → (do
          setState s'
          writeResult destination (← Expr.constant (s.createThread id callee.registers).1 64) :
            Exec σ Unit).Keeps I fun _ ↦ True := fun hs' ↦
        keeps_bind (keeps_setState hs') fun _ _ ↦
          keeps_bind (keeps_lift (Expr.safe_constant _ _)) fun _ h ↦ keeps_writeResult _ h.1
      split
      · split
        · rename_i t ht
          refine keeps_bind (keeps_lift ((hs'.of_thread? ht).safe_modifyFrame fun f hf ↦
            hf.safe_write 0 ha)) fun t ht ↦ ?_
          exact keeps_bind (keeps_pure (hs'.setThread ht)) fun _ hs' ↦ hend hs'
        · exact keeps_bind (keeps_pure hs') fun _ hs' ↦ hend hs'
      · exact keeps_bind (keeps_pure hs') fun _ hs' ↦ hend hs'

theorem keeps_exitThread : (exitThread : Exec σ Unit).Keeps I fun _ ↦ True := by
  refine keeps_bind (keeps_updateState fun s hs ↦ hs.safe_terminateThread _) fun _ _ ↦ ?_
  refine keeps_bind keeps_state fun s _ ↦ ?_
  split
  · exact keeps_terminateOnExit
  · exact keeps_schedule _

theorem keeps_sleep {list : Expr} (h : list.WellFormed) :
    (sleep list : Exec σ Unit).Keeps I fun _ ↦ True :=
  keeps_bind (keeps_knownArgument h _) fun _ _ ↦
    keeps_bind (keeps_updateState fun _ hs ↦ hs.safe_sleep _) fun _ _ ↦ keeps_schedule _

theorem keeps_notify {list : Expr} (h : list.WellFormed) (all : Bool) :
    (notify list all : Exec σ Unit).Keeps I fun _ ↦ True := by
  refine keeps_bind (keeps_knownArgument h _) fun list _ ↦ ?_
  split
  · exact keeps_updateState fun _ hs ↦ Checked.ends_pure hs.wake
  · refine keeps_bind keeps_state fun s _ ↦ ?_
    split
    · exact keeps_updateState fun _ hs ↦ Checked.ends_pure hs.wake
    · exact keeps_pure trivial

/-! ## Floating point -/

section

variable {lhs rhs value : Expr}

theorem keeps_floatOperand (h : value.WellFormed) :
    (floatOperand value : Exec σ _).Keeps I fun _ ↦ True :=
  keeps_bind (keeps_toConstant h) fun _ _ ↦ keeps_pure trivial

theorem keeps_floatFormat (width : Nat) : (floatFormat width : Exec σ _).Keeps I fun _ ↦ True := by
  unfold floatFormat
  split
  · exact keeps_pure trivial
  · exact keeps_fail _

theorem keeps_writeConstant (r : Register) (value width : Nat) :
    (do write r (← Expr.constant value width) : Exec σ Unit).Keeps I fun _ ↦ True :=
  keeps_bind (keeps_lift (Expr.safe_constant _ _)) fun _ h ↦ keeps_write r h.1

theorem keeps_floatBinary (op : FloatOp) (hl : lhs.WellFormed) (hr : rhs.WellFormed) (r : Register) :
    (floatBinary op lhs rhs r : Exec σ Unit).Keeps I fun _ ↦ True := by
  refine keeps_bind (keeps_floatOperand hl) fun a _ ↦ keeps_bind (keeps_floatOperand hr) fun b _ ↦ ?_
  dsimp only
  split
  · exact keeps_fail_bind _
  · exact keeps_bind (keeps_floatFormat _) fun _ _ ↦ keeps_bind keeps_executor fun _ _ ↦ keeps_writeConstant _ _ _

theorem keeps_floatCompare (p : FloatPredicate) (hl : lhs.WellFormed) (hr : rhs.WellFormed)
    (r : Register) : (floatCompare p lhs rhs r : Exec σ Unit).Keeps I fun _ ↦ True :=
  keeps_bind (keeps_floatOperand hl) fun _ _ ↦ keeps_bind (keeps_floatOperand hr) fun _ _ ↦
    keeps_bind (keeps_floatFormat _) fun _ _ ↦ keeps_bind (keeps_floatFormat _) fun _ _ ↦
      keeps_write r (Expr.bool_wellFormed _)

theorem keeps_floatCast (op : FloatCastOp) (h : value.WellFormed) (width : Nat) (r : Register) :
    (floatCast op value width r : Exec σ Unit).Keeps I fun _ ↦ True := by
  refine keeps_bind (keeps_floatOperand h) fun p _ ↦ ?_
  have hend := fun result (_ : True) ↦ keeps_writeConstant (σ := σ) (I := I) r result width
  have hformat (w : Nat) (f : Ieee.Format → Nat) :
      (do write r (← Expr.constant (f (← floatFormat w)) width) : Exec σ Unit).Keeps I fun _ ↦ True :=
    keeps_bind (keeps_floatFormat w) fun _ _ ↦ keeps_writeConstant _ _ _
  cases op with
  | narrow => exact keeps_bind (keeps_floatFormat _) fun _ _ ↦ hformat _ _
  | widen => exact keeps_bind (keeps_floatFormat _) fun _ _ ↦ hformat _ _
  | toUnsigned => exact hformat _ _
  | toSigned => exact hformat _ _
  | ofUnsigned => exact hformat _ _
  | ofSigned => exact keeps_bind (keeps_lift (Bits.safe_toSignedChecked _ _)) fun _ _ ↦ hformat _ _

end

/-! ## Calls -/

section

variable {arguments : List Expr} (harguments : ∀ e ∈ arguments, e.WellFormed)
include harguments

theorem keeps_storeVarargs : (storeVarargs arguments : Exec σ MemoryObject).Keeps I fun _ ↦ True := by
  refine keeps_bind keeps_get fun focus hf ↦ ?_
  dsimp only
  split
  · exact keeps_fail _
  · rename_i object _ _ _
    refine keeps_bind (keeps_set ⟨⟨hf.executor.exact, hf.executor.constants, hf.executor.states⟩,
      ⟨hf.state.valid, hf.state.satisfiable, hf.state.threads, hf.state.memory⟩⟩) fun _ _ ↦ ?_
    refine keeps_bind (keeps_lift (ObjectState.safe_zeroed object)) fun contents hc ↦ ?_
    refine keeps_bind (keeps_foldlM hc ?_) fun contents hc ↦
      keeps_bind (keeps_bindContents hc) fun _ _ ↦ keeps_pure trivial
    rintro ⟨argument, slot⟩ hmem contents hc
    have hargument := harguments argument (List.fst_mem_of_mem_zipIdx hmem)
    exact keeps_bind (keeps_lift (Expr.safe_mkZext 64 hargument)) fun _ h ↦
      keeps_lift (hc.safe_write (Expr.pointer_wellFormed _) h.1)

omit harguments in
theorem keeps_hostArgument (name : String) {argument : Expr} (h : argument.WellFormed) :
    (hostArgument name argument : Exec σ Nat).Keeps I fun _ ↦ True := by
  refine keeps_bind (keeps_toUnique h) fun v hv ↦ ?_
  split
  · exact keeps_pure trivial
  · refine keeps_bind keeps_executor fun e _ ↦ ?_
    split
    · exact keeps_bind (keeps_toConstant hv.1) fun _ _ ↦ keeps_pure trivial
    · exact keeps_fail _

theorem keeps_callHost (name : String) (resultWidth : Option Nat) (destination : Option Register) :
    (callHost name resultWidth arguments destination : Exec σ Unit).Keeps I fun _ ↦ True := by
  refine keeps_bind keeps_executor fun e _ ↦ ?_
  dsimp only
  split
  · refine keeps_bind (keeps_mapM fun a ha ↦ keeps_hostArgument name (harguments a ha)) fun values _ ↦ ?_
    refine keeps_bind keeps_state fun s _ ↦ keeps_bind keeps_executor fun e _ ↦ ?_
    refine keeps_bind (keeps_modifyExecutor fun _ he ↦ ⟨he.exact, he.constants, he.states⟩) fun _ _ ↦ ?_
    split
    · exact keeps_fail _
    · refine keeps_bind keeps_state fun s hs ↦ ?_
      refine keeps_bind (keeps_lift (hs.memory.safe_copyIn _)) fun p hm ↦ ?_
      split
      · refine keeps_bind (keeps_updateState fun s hs ↦ Checked.ends_pure (hs.withMemory hm))
          fun _ _ ↦ ?_
        split
        · exact keeps_pure trivial
        · exact keeps_fail _
        · exact keeps_writeConstant _ _ _
      · exact keeps_fail_bind _
  · exact keeps_fail_bind _

theorem keeps_enterFrame (id : FunctionId) (callee : Function) (destination : Option Register)
    (varargs : Option MemoryObject) : (do
      let caller : CallSite := ⟨(← executor).location, destination⟩
      updateState fun s ↦ do
        let s ← s.pushFrame (some caller) id callee.registers
        let s ← (arguments.take callee.parameters).zipIdx.foldlM
          (fun s (argument, i) ↦ s.write i argument) s
        let s ← s.modifyFrame fun f ↦ return { f with varargs }
        s.modifyThread fun t ↦ return { t with pc := .entry id, incoming := none } :
          Exec σ Unit).Keeps I fun _ ↦ True := by
  refine keeps_bind keeps_executor fun e _ ↦ keeps_updateState fun s hs ↦ ?_
  refine Checked.ends_bind (hs.safe_pushFrame _ _ _) fun s hs ↦ ?_
  refine Checked.ends_bind (Checked.ends_foldlM hs ?_) fun s hs ↦ ?_
  · rintro ⟨argument, i⟩ hmem s hs
    exact hs.safe_write i (harguments argument
      (List.mem_of_mem_take (List.fst_mem_of_mem_zipIdx hmem)))
  · refine Checked.ends_bind (hs.safe_modifyFrame fun f hf ↦ Checked.ends_pure hf) fun s hs ↦ ?_
    exact hs.safe_modifyThread fun t ht ↦ Checked.ends_pure ht

theorem keeps_enter (id : FunctionId) (callee : Function) (destination : Option Register) :
    (enter id callee arguments destination : Exec σ Unit).Keeps I fun _ ↦ True := by
  have hpush := keeps_enterFrame (σ := σ) (I := I) harguments id callee destination
  unfold enter
  dsimp only
  split
  · exact keeps_fail_bind _
  · split
    · refine keeps_bind (R := fun _ ↦ True) ?_ fun varargs _ ↦ hpush varargs
      rw [map_eq_pure_bind]
      exact keeps_bind (keeps_storeVarargs fun e he ↦ harguments e (List.mem_of_mem_drop he)) fun _ _ ↦
        keeps_pure trivial
    · exact keeps_bind (R := fun _ ↦ True) (keeps_pure trivial) fun varargs _ ↦ hpush varargs

theorem keeps_call (id : FunctionId) (destination : Option Register) :
    (call id arguments destination : Exec σ Unit).Keeps I fun _ ↦ True := by
  refine keeps_bind keeps_executor fun e _ ↦
    keeps_bind (keeps_lift (e.program.safe_function id)) fun callee _ ↦ ?_
  split
  · exact keeps_callHost harguments _ _ _
  · exact keeps_enter harguments _ _ _

theorem keeps_callAddress (address : Nat) (destination : Option Register) :
    (callAddress address arguments destination : Exec σ Unit).Keeps I fun _ ↦ True := by
  refine keeps_bind keeps_executor fun e _ ↦ ?_
  split
  · exact keeps_fail _
  · exact keeps_call harguments _ _

theorem keeps_callEach {pointer : Expr} (hpointer : pointer.WellFormed)
    (destination : Option Register) (fuel resolved : Nat) (free : Option Branch) :
    (callEach pointer arguments destination fuel resolved free : Exec σ Unit).Keeps I
      fun _ ↦ True := by
  induction fuel generalizing resolved free with
  | zero =>
    cases free with
    | none => exact keeps_pure trivial
    | some branch => exact keeps_lift (Checked.ends_throw (by decide))
  | succ fuel ih =>
    cases free with
    | none => exact keeps_pure trivial
    | some branch =>
      refine keeps_bind keeps_executor fun e _ ↦ ?_
      dsimp only
      split
      · exact keeps_onSide _ (keeps_terminateEarly _)
      · refine keeps_bind (keeps_onBranch branch (keeps_value hpointer)) fun o ho ↦ ?_
        split
        · rename_i value
          refine keeps_bind (keeps_lift (Expr.safe_mkCompare .eq hpointer (ho value rfl).1))
            fun same hsame ↦ ?_
          refine keeps_bind (keeps_forkOn branch hsame true) fun sides _ ↦ ?_
          exact keeps_bind (keeps_onSide _ (keeps_callAddress harguments _ _)) fun _ _ ↦ ih _ _
        · exact keeps_pure trivial

theorem keeps_callPointer {pointer : Expr} (hpointer : pointer.WellFormed)
    (destination : Option Register) :
    (callPointer pointer arguments destination : Exec σ Unit).Keeps I fun _ ↦ True :=
  keeps_callEach harguments hpointer _ _ _ _

end

theorem keeps_ret {value : Option Expr} (hvalue : ∀ e, value = some e → e.WellFormed) :
    (ret value : Exec σ Unit).Keeps I fun _ ↦ True := by
  refine keeps_bind keeps_state fun s hs ↦ keeps_bind (keeps_lift hs.safe_frame) fun f _ ↦ ?_
  split
  · split
    · exact keeps_terminateOnExit
    · exact keeps_exitThread
  · refine keeps_bind (keeps_updateState fun s hs ↦ ?_) fun _ _ ↦ ?_
    · exact Checked.ends_bind hs.safe_popFrame fun p hs ↦
        hs.safe_modifyThread fun t ht ↦ Checked.ends_pure ht
    · split
      · exact keeps_pure trivial
      · exact keeps_fail _
      · exact keeps_write _ (hvalue _ rfl)

/-! ## Operands -/

theorem keeps_operand (o : Operand) : (operand o : Exec σ Expr).Keeps I Expr.WellFormed := by
  refine keeps_bind keeps_executor fun e he ↦ ?_
  cases o with
  | register r =>
    refine keeps_bind keeps_state fun s hs ↦ keeps_bind (keeps_lift hs.safe_frame) fun f hf ↦
      keeps_ofExcept fun value h ↦ ?_
    unfold Frame.read at h
    split at h
    · rename_i e he
      exact Except.ok.inj h ▸ hf.of_read? he
    · cases h
  | constant c =>
    dsimp only
    split
    · rename_i value h
      exact keeps_pure (he.constants value (Array.mem_of_getElem? h))
    · exact keeps_lift (Checked.ends_throw (by decide))

theorem keeps_pointer (o : Operand) :
    (pointer o : Exec σ Expr).Keeps I fun e ↦ e.WellFormed ∧ e.width = 64 :=
  keeps_bind (keeps_operand o) fun _ h ↦ keeps_lift (Expr.safe_mkZext 64 h)

theorem keeps_demandSameWidth (lhs rhs : Expr) :
    (demandSameWidth lhs rhs : Exec σ Unit).Keeps I fun _ ↦ True := by
  unfold demandSameWidth
  split
  · exact keeps_fail _
  · exact keeps_pure trivial

/-! ## Jumps -/

theorem keeps_mergeWith (ids : List StateId) :
    (mergeWith ids : Exec σ Unit).Keeps I fun _ ↦ True := by
  induction ids with
  | nil => exact keeps_pure trivial
  | cons id rest ih =>
    refine keeps_bind keeps_get fun focus hf ↦ ?_
    dsimp only
    split
    · exact ih
    · rename_i other hother
      have hother := hf.executor.states id other hother
      refine keeps_bind (keeps_bears (hother.ends_merge hf.state)) fun o ho ↦ ?_
      cases o with
      | none => exact ih
      | some merged =>
        have hmerged := ho merged rfl
        have hend : ∀ {merged : State}, merged.Sound I → ∀ (tree : ProcessTree)
            (seeds : Std.TreeMap StateId (List Seed)), (do
              set { focus with executor := { focus.executor with
                tree, seeds, states := focus.executor.states.insert id merged } }
              terminate : Exec σ Unit).Keeps I fun _ ↦ True := fun hmerged tree seeds ↦
          keeps_bind (keeps_set ⟨⟨hf.executor.exact, hf.executor.constants,
            (hf.executor.insert id hmerged).states⟩, hf.state⟩) fun _ _ ↦ keeps_terminate
        dsimp only
        split
        · refine keeps_bind (keeps_lift (ProcessTree.safe_merge _ _ _ _)) fun p _ ↦ ?_
          refine keeps_bind (keeps_pure (R := fun p ↦ p.1.Sound I) ?_) fun p hp ↦ hend hp _ _
          exact ⟨hmerged.valid, hmerged.satisfiable, hmerged.threads, hmerged.memory⟩
        · exact keeps_bind (keeps_pure (R := fun p ↦ p.1.Sound I) hmerged) fun p hp ↦ hend hp _ _

theorem keeps_jump (block : BlockId) : (jump block : Exec σ Unit).Keeps I fun _ ↦ True := by
  refine keeps_bind (keeps_updateState fun s hs ↦
    hs.safe_modifyThread fun t ht ↦ Checked.ends_pure ht) fun _ _ ↦ ?_
  refine keeps_bind keeps_executor fun e _ ↦ ?_
  split
  · refine keeps_bind keeps_state fun s hs ↦ keeps_bind (keeps_lift hs.safe_thread) fun t _ ↦ ?_
    refine keeps_bind (keeps_lift (e.program.safe_function _)) fun callee _ ↦ ?_
    split
    · exact keeps_pure trivial
    · refine keeps_bind (R := fun _ ↦ True) ?_ fun ids _ ↦ keeps_mergeWith ids
      exact keeps_bind keeps_executor fun e _ ↦ keeps_bind keeps_state fun s hs ↦
        keeps_bind (keeps_lift hs.safe_thread) fun t _ ↦ keeps_pure trivial
  · exact keeps_pure trivial

/-- Every target can be reached, if answers are right. -/
abbrev Reachable (I : Trust) (c : ConstraintSet) (targets : List (BlockId × Expr)) : Prop :=
  ∀ t ∈ targets, t.2.IsTruth ∧ (I.right → ∃ a, I.Solves a c ∧ a.val t.2 ≠ 0)

theorem safe_addTarget {c : ConstraintSet} {targets : List (BlockId × Expr)} {block : BlockId}
    {condition : Expr} (htargets : Reachable I c targets) (htruth : condition.IsTruth)
    (hsat : I.right → ∃ a, I.Solves a c ∧ a.val condition ≠ 0) :
    Safe (addTarget targets block condition) fun r ↦ Reachable I c r ∧ r ≠ [] := by
  unfold addTarget
  split
  · rename_i hany
    have hjoin : ∀ t ∈ targets, Safe (do
        if t.1 = block then return (t.1, ← Expr.mkOr t.2 condition) else return t)
          fun t' ↦ t'.2.IsTruth ∧ (I.right → ∃ a, I.Solves a c ∧ a.val t'.2 ≠ 0) := by
      intro t ht
      split
      · refine Checked.ends_bind (Expr.safe_mkOr (htargets t ht).1 htruth) fun e he ↦
          Checked.ends_pure ⟨he.1, fun hright ↦ ?_⟩
        obtain ⟨a, ha, hval⟩ := hsat hright
        exact ⟨a, ha, (he.2 a ha.free).2 (.inr hval)⟩
      · exact Checked.ends_pure (htargets t ht)
    cases targets with
    | nil => cases hany
    | cons t rest =>
      rw [List.forall_mem_cons] at hjoin
      rw [List.mapM_cons]
      refine Checked.ends_bind hjoin.1 fun t' ht' ↦
        Checked.ends_bind (Checked.ends_mapM hjoin.2) fun rest' hrest' ↦ Checked.ends_pure ⟨?_, nofun⟩
      exact List.forall_mem_cons.2 ⟨ht', hrest'⟩
  · refine Checked.ends_pure ⟨fun t ht ↦ ?_, by simp⟩
    obtain ht | ht := List.mem_append.1 ht
    · exact htargets t ht
    · obtain rfl := List.mem_singleton.1 ht
      exact ⟨htruth, hsat⟩

/-- What holds after some cases, if answers are right: the targets can be reached, and if there are none
then no case was possible. -/
structure Switched (I : Trust) (c : ConstraintSet) (p : List (BlockId × Expr) × Expr) : Prop where
  targets : Reachable I c p.1
  truth : p.2.IsTruth
  otherwise : I.right → p.1 = [] → ∀ a, I.Solves a c → a.val p.2 ≠ 0

theorem keepsAt_switchTargets {focus : Focus σ} {value : Expr} (hf : focus.Sound I)
    (hvalue : value.WellFormed) (otherwise : BlockId) (cases : List (Nat × BlockId)) :
    (switchTargets value otherwise cases).KeepsAt I focus fun targets f ↦
      Reachable I f.state.constraints targets := by
  have hask : ∀ {f : Focus σ} {e : Expr}, f.Sound I → e.IsTruth →
      (query (Solver.mayBeTrue · e)).KeepsAt I f fun b f' ↦ f'.state = f.state ∧
        (I.right → (b = true ↔ ∃ a, I.Solves a f.state.constraints ∧ a.val e ≠ 0)) := fun hf he ↦
    keepsAt_query (fun hright ↦ Solver.answers_mayBeTrue hf.state.valid (hf.state.satisfiable hright) he.1) hf
  refine keepsAt_bind (keepsAt_forIn (J := fun _ p f ↦ Switched I f.state.constraints p) hf ?_ ?_) ?_
  · exact ⟨by simp, ⟨Expr.bool_wellFormed true, rfl⟩, fun _ _ a _ ↦ by simp [Expr.bool]⟩
  · rintro ⟨case, block⟩ rest ⟨targets, none_⟩ f hf hp
    refine keepsAt_bind (keepsAt_lift (Expr.safe_constant _ _) hf) ?_
    rintro number _ hf ⟨rfl, hnumber⟩
    refine keepsAt_bind (keepsAt_lift (Expr.safe_mkCompare .eq hvalue hnumber.1) hf) ?_
    rintro same _ hf ⟨rfl, hsame⟩
    refine keepsAt_bind (keepsAt_lift (Expr.safe_mkAnd hp.truth hsame.isZero) hf) ?_
    rintro none' _ hf ⟨rfl, hnone', hval⟩
    refine keepsAt_bind (hask hf hsame) ?_
    rintro possible f' hf' ⟨hstate, hpossible⟩
    rw [← hstate] at hp hpossible
    split
    · rename_i h
      refine keepsAt_bind (keepsAt_lift (safe_addTarget hp.targets hsame fun hright ↦ (hpossible hright).1 h) hf') ?_
      rintro targets' _ hf' ⟨rfl, htargets', hne⟩
      exact keepsAt_pure hf' ⟨_, rfl, htargets', hnone', fun _ h ↦ absurd h hne⟩
    · rename_i h
      refine keepsAt_pure hf' ⟨_, rfl, hp.targets, hnone', fun hright hnil a ha ↦ ?_⟩
      refine (hval a ha.free).2 ⟨hp.otherwise hright hnil a ha, ?_⟩
      have hzero : a.val same = 0 := by
        by_contra hne
        exact h ((hpossible hright).2 ⟨a, ha, hne⟩)
      simp [Expr.val_isZero ha.free hsame.1, hzero]
  · rintro ⟨targets, none_⟩ f hf hp
    refine keepsAt_bind (hask hf hp.truth) ?_
    rintro possible f' hf' ⟨hstate, hpossible⟩
    rw [← hstate] at hp hpossible
    dsimp only
    split
    · rename_i h
      have hsat : I.right → ∃ a, I.Solves a f'.state.constraints ∧ a.val none_ ≠ 0 := by
        intro hright
        obtain h | h := Bool.or_eq_true_iff.1 h
        · exact (hpossible hright).1 h
        · obtain ⟨a, ha⟩ := hf'.state.satisfiable hright
          exact ⟨a, ha, hp.otherwise hright (List.isEmpty_iff.1 h) a ha⟩
      refine keepsAt_bind (keepsAt_lift (safe_addTarget hp.targets hp.truth hsat) hf') ?_
      rintro targets' _ hf' ⟨rfl, htargets', -⟩
      exact keepsAt_pure hf' htargets'
    · exact keepsAt_pure hf' hp.targets

theorem keeps_switch {value : Expr} (hvalue : value.WellFormed) (otherwise : BlockId)
    (cases : List (Nat × BlockId)) :
    (switch value otherwise cases : Exec σ Unit).Keeps I fun _ ↦ True := by
  refine keeps_bind (keeps_toUnique hvalue) fun value hvalue ↦ ?_
  split
  · exact keeps_jump _
  · intro focus hf
    refine keepsAt_bind (keepsAt_switchTargets hf hvalue.1 otherwise cases) fun targets f hf h ↦ ?_
    refine keepsAt_bind (keepsAt_branch hf fun e he ↦ ?_) fun arms f hf _ ↦
      Keeps.here (R := fun _ ↦ True) ?_ hf
    · obtain ⟨t, ht, rfl⟩ := List.mem_map.1 he
      exact h t ht
    · refine keeps_bind (keeps_forIn ?_) fun _ _ ↦ keeps_pure trivial
      rintro ⟨arm, block, _⟩ -
      exact keeps_bind (keeps_onSide arm (keeps_jump block)) fun _ _ ↦ keeps_pure rfl

/-! ## Arithmetic -/

section

variable {lhs rhs value base condition : Expr}

theorem keeps_binary (op : BinOp) (hl : lhs.WellFormed) (hr : rhs.WellFormed) (r : Register) :
    (binary op lhs rhs r : Exec σ Unit).Keeps I fun _ ↦ True := by
  have hwrite : (do write r (← Expr.mkBinary op lhs rhs) : Exec σ Unit).Keeps I fun _ ↦ True :=
    keeps_bind (keeps_lift (Expr.safe_mkBinary op hl hr)) fun _ h ↦ keeps_write r h.1
  refine keeps_bind keeps_executor fun e _ ↦ ?_
  split
  · refine keeps_bind (keeps_fork hr.isZero true) fun sides _ ↦ ?_
    exact keeps_bind (keeps_onSide _ (keeps_fail _)) fun _ _ ↦ keeps_onSide _ hwrite
  · exact hwrite

theorem keeps_cast (op : CastOp) (hvalue : value.WellFormed) (width : Nat) :
    (cast op value width : Exec σ Expr).Keeps I Expr.WellFormed := by
  have hzext : (liftM (Expr.mkZext value width) : Exec σ Expr).Keeps I Expr.WellFormed :=
    keeps_lift ((Expr.safe_mkZext width hvalue).mono fun _ h ↦ h.1)
  cases op with
  | trunc => exact keeps_lift ((Expr.safe_mkExtract 0 width hvalue).mono fun _ h ↦ h.1)
  | zext => exact hzext
  | ptrToInt => exact hzext
  | intToPtr => exact hzext
  | sext => exact keeps_lift ((Expr.safe_mkSext width hvalue).mono fun _ h ↦ h.1)
  | bitCast =>
    unfold cast
    dsimp only
    split
    · exact keeps_pure hvalue
    · exact keeps_fail _

theorem keeps_elementAddress (hbase : base.WellFormed) (indices : List (Operand × Nat)) (offset : Nat) :
    (elementAddress base indices offset : Exec σ Expr).Keeps I Expr.WellFormed := by
  refine keeps_bind (keeps_foldlM hbase ?_) fun address haddress ↦ ?_
  · rintro ⟨index, scale⟩ - address haddress
    refine keeps_bind (keeps_operand index) fun index hindex ↦ ?_
    refine keeps_bind (keeps_lift (Expr.safe_mkSext 64 hindex)) fun index hindex ↦ ?_
    refine keeps_bind (keeps_lift (Expr.safe_mkBinary .mul hindex.1 (Expr.pointer_wellFormed scale)))
      fun distance hdistance ↦ ?_
    exact keeps_lift ((Expr.safe_mkBinary .add haddress hdistance.1).mono fun _ h ↦ h.1)
  · split
    · exact keeps_pure haddress
    · exact keeps_lift ((Expr.safe_mkBinary .add haddress (Expr.pointer_wellFormed offset)).mono
        fun _ h ↦ h.1)

/-! ## Intrinsics -/

theorem keeps_assume (hcondition : condition.WellFormed) :
    (assume condition : Exec σ Unit).Keeps I fun _ ↦ True := by
  refine keeps_bind (keeps_lift (Expr.safe_mkTruth hcondition)) fun condition hcondition focus hf ↦ ?_
  refine keepsAt_bind (keepsAt_query (fun hright ↦ Solver.answers_mustBeFalse hf.state.valid
    (hf.state.satisfiable hright) hcondition.1) hf) ?_
  rintro never f hf ⟨hstate, hnever⟩
  split
  · exact keepsAt_bind (keepsAt_fail _ hf (Q := fun _ _ ↦ False)) fun _ _ _ h ↦ h.elim
  · rename_i h
    refine keepsAt_addConstraint hf hcondition fun hright ↦ ?_
    rw [hstate]
    simpa using mt (hnever hright).2 h

theorem keeps_assert (hcondition : condition.WellFormed) (message : String) :
    (assert condition message : Exec σ Unit).Keeps I fun _ ↦ True :=
  keeps_bind (keeps_lift (Expr.safe_mkTruth hcondition)) fun _ h ↦
    keeps_bind (keeps_fork h false) fun _ _ ↦ keeps_onSide _ (keeps_fail _)

end

theorem keeps_forkTwice (destination : Option Register) :
    (forkTwice destination : Exec σ Unit).Keeps I fun _ ↦ True := by
  refine keeps_bind (keeps_branch_true (by simp)) fun arms _ ↦ ?_
  refine keeps_bind (keeps_forIn ?_) fun _ _ ↦ keeps_pure trivial
  rintro ⟨arm, i⟩ -
  refine keeps_bind (keeps_onSide arm ?_) fun _ _ ↦ keeps_pure rfl
  exact keeps_bind (keeps_lift (Expr.safe_constant _ _)) fun _ h ↦ keeps_writeResult _ h.1

theorem keeps_intrinsic (i : Intrinsic) {arguments : List Expr}
    (harguments : ∀ e ∈ arguments, e.WellFormed) (destination : Option Register) :
    (intrinsic i arguments destination : Exec σ Unit).Keeps I fun _ ↦ True := by
  have hresult (value width : Nat) : (do
      writeResult destination (← Expr.constant value width) : Exec σ Unit).Keeps I fun _ ↦ True :=
    keeps_bind (keeps_lift (Expr.safe_constant _ _)) fun _ h ↦ keeps_writeResult _ h.1
  unfold intrinsic
  -- in the order in which the intrinsics are listed there
  have hone {e : Expr} (h : ∀ x ∈ [e], x.WellFormed) : e.WellFormed := List.forall_mem_singleton.1 h
  have htwo {e f : Expr} (h : ∀ x ∈ [e, f], x.WellFormed) : e.WellFormed ∧ f.WellFormed := by
    simpa using h
  split
  · exact keeps_allocateSized (hone harguments) _ _ _
  · refine keeps_bind (keeps_lift (Expr.safe_mkZext 64 (htwo harguments).1)) fun count hcount ↦ ?_
    refine keeps_bind (keeps_lift (Expr.safe_mkZext 64 (htwo harguments).2)) fun size hsize ↦ ?_
    exact keeps_bind (keeps_lift (Expr.safe_mkBinary .mul hcount.1 hsize.1)) fun _ h ↦
      keeps_allocateSized h.1 _ _ _
  · exact keeps_reallocate (htwo harguments).1 (htwo harguments).2 _
  · exact keeps_free (hone harguments) _
  · exact keeps_makeSymbolic _ (htwo harguments).1 (htwo harguments).2
  · exact keeps_assume (hone harguments)
  · exact keeps_assert (hone harguments) _
  · exact keeps_fail _
  · exact keeps_terminateOnExit
  · exact keeps_forkTwice _
  · refine keeps_bind (keeps_knownArgument (hone harguments) _) fun enabled _ ↦
      keeps_updateState fun s hs ↦ Checked.ends_pure ?_
    exact ⟨hs.valid, hs.satisfiable, hs.threads, hs.memory⟩
  · exact keeps_createThread (htwo harguments).1 (htwo harguments).2 _
  · exact keeps_exitThread
  · exact keeps_schedule _
  · exact keeps_sleep (hone harguments)
  · exact keeps_notify (hone harguments) _
  · refine keeps_bind keeps_state fun s hs ↦ keeps_bind (keeps_setState ?_) fun _ _ ↦ hresult _ _
    exact ⟨hs.valid, hs.satisfiable, hs.threads, hs.memory⟩
  · exact keeps_fail _

theorem keeps_instruction (i : Instruction) : (instruction i : Exec σ Unit).Keeps I fun _ ↦ True := by
  unfold instruction
  cases i with
  | ret value =>
    refine keeps_bind (R := fun r ↦ ∀ e, r = some e → e.WellFormed) ?_ fun _ h ↦ keeps_ret h
    cases value with
    | none => exact keeps_pure nofun
    | some o =>
      rw [Option.mapM_some]
      exact keeps_bind (keeps_operand o) fun _ h ↦ keeps_pure (by simpa using h)
  | br target => exact keeps_jump target
  | condBr condition ifTrue ifFalse =>
    refine keeps_bind (keeps_operand condition) fun condition hcondition ↦ ?_
    refine keeps_bind (keeps_lift (Expr.safe_mkTruth hcondition)) fun condition hcondition ↦ ?_
    refine keeps_bind (keeps_fork hcondition false) fun sides _ ↦ ?_
    exact keeps_bind (keeps_onSide _ (keeps_jump ifTrue)) fun _ _ ↦ keeps_onSide _ (keeps_jump ifFalse)
  | switch condition otherwise cases =>
    exact keeps_bind (keeps_operand condition) fun _ h ↦ keeps_switch h otherwise cases
  | unreachable => exact keeps_fail _
  | call callee arguments destination =>
    refine keeps_bind (keeps_mapM fun o _ ↦ keeps_operand o) fun arguments harguments ↦ ?_
    cases callee with
    | function f => exact keeps_call harguments f destination
    | pointer p => exact keeps_bind (keeps_pointer p) fun _ h ↦ keeps_callPointer harguments h.1 _
    | intrinsic i => exact keeps_intrinsic i harguments destination
  | binary op lhs rhs destination =>
    refine keeps_bind (keeps_operand lhs) fun lhs hl ↦ keeps_bind (keeps_operand rhs) fun rhs hr ↦ ?_
    exact keeps_bind (keeps_demandSameWidth lhs rhs) fun _ _ ↦ keeps_binary op hl hr destination
  | icmp predicate lhs rhs destination =>
    refine keeps_bind (keeps_operand lhs) fun lhs hl ↦ keeps_bind (keeps_operand rhs) fun rhs hr ↦ ?_
    exact keeps_bind (keeps_demandSameWidth lhs rhs) fun _ _ ↦
      keeps_bind (keeps_lift (Expr.safe_build predicate hl hr)) fun _ h ↦ keeps_write destination h.1
  | select condition ifTrue ifFalse destination =>
    refine keeps_bind (keeps_operand condition) fun condition hcondition ↦ ?_
    refine keeps_bind (keeps_lift (Expr.safe_mkTruth hcondition)) fun condition hcondition ↦ ?_
    refine keeps_bind (keeps_operand ifTrue) fun t ht ↦ keeps_bind (keeps_operand ifFalse) fun f hf ↦ ?_
    exact keeps_bind (keeps_demandSameWidth t f) fun _ _ ↦
      keeps_bind (keeps_lift (Expr.safe_mkSelect hcondition.1 ht hf)) fun _ h ↦ keeps_write destination h
  | cast op value width destination =>
    exact keeps_bind (keeps_operand value) fun _ h ↦
      keeps_bind (keeps_cast op h width) fun _ h ↦ keeps_write destination h
  | fbinary op lhs rhs destination =>
    exact keeps_bind (keeps_operand lhs) fun _ hl ↦ keeps_bind (keeps_operand rhs) fun _ hr ↦
      keeps_floatBinary op hl hr destination
  | fcmp predicate lhs rhs destination =>
    exact keeps_bind (keeps_operand lhs) fun _ hl ↦ keeps_bind (keeps_operand rhs) fun _ hr ↦
      keeps_floatCompare predicate hl hr destination
  | fcast op value width destination =>
    exact keeps_bind (keeps_operand value) fun _ h ↦ keeps_floatCast op h width destination
  | alloca elementSize count destination =>
    refine keeps_bind (keeps_pointer count) fun count hcount ↦ ?_
    exact keeps_bind (keeps_lift (Expr.safe_mkBinary .mul (Expr.pointer_wellFormed _) hcount.1))
      fun _ h ↦ keeps_allocateSized h.1 _ _ _
  | load address width destination =>
    exact keeps_bind (keeps_pointer address) fun _ h ↦
      keeps_access (show (Access.load _ _).WellFormed from trivial) h.1
  | store address value =>
    exact keeps_bind (keeps_pointer address) fun _ ha ↦ keeps_bind (keeps_operand value) fun _ hv ↦
      keeps_access (show (Access.store _).WellFormed from hv) ha.1
  | elementPtr base indices offset destination =>
    exact keeps_bind (keeps_pointer base) fun _ hb ↦
      keeps_bind (keeps_elementAddress hb.1 indices offset) fun _ h ↦ keeps_write destination h
  | phi incoming destination =>
    refine keeps_bind keeps_state fun s hs ↦ keeps_bind (keeps_lift hs.safe_thread) fun t _ ↦ ?_
    dsimp only
    split
    · exact keeps_fail _
    · exact keeps_bind (keeps_operand _) fun _ h ↦ keeps_write destination h
  | unsupported name => exact keeps_fail _

theorem keeps_step : (step : Exec σ Unit).Keeps I fun _ ↦ True := by
  refine keeps_bind keeps_state fun s hs ↦ keeps_bind (keeps_lift hs.safe_thread) fun t _ ↦ ?_
  refine keeps_bind (keeps_updateState fun s hs ↦ ?_) fun _ _ ↦ ?_
  · refine State.Sound.safe_modifyThread ?_ fun t ht ↦ Checked.ends_pure ht
    exact ⟨hs.valid, hs.satisfiable, hs.threads, hs.memory⟩
  · refine keeps_bind (keeps_modifyReports (fun _ ↦ rfl) (fun _ ↦ rfl) fun _ ↦ rfl) fun _ _ ↦ ?_
    refine keeps_bind keeps_executor fun e _ ↦ ?_
    refine keeps_bind (keeps_lift (e.program.safe_instruction _)) fun i _ ↦ ?_
    exact keeps_tryCatch (keeps_instruction i) keeps_settle

end Exec

end Symex
