import Symex.Executor.Call
import Symex.Executor.Float
import Symex.Proofs.Guidance.Allocation

namespace Symex

open Checked

variable {σ α : Type} {o : Outset} {held : List State} {p : Prop} {focus : Focus σ}

theorem State.Steady.meets {K : MemoryObject → Prop} {s s' : State} {x : Checked State} (hs : s.Steady K s')
    (hx : Meets x (s'.Steady K)) : Meets x (s.Steady K) :=
  hx.mono fun _ h ↦ hs.trans h

namespace Exec

/-! ## Threads -/

theorem guidesAt_setState {s : State} (hf : focus.Guided o held p True) (hs : focus.state.Steady o.object s) :
    (setState s : Exec σ Unit).GuidesAt o held focus p fun _ _ ↦ True :=
  ends_setState ⟨hs.id_eq, fun _ _ ↦ ⟨hf.withState hs, trivial⟩, nofun⟩

theorem guides_switchTo (thread : ThreadId) (preempts : Bool) :
    (switchTo thread preempts : Exec σ Unit).Guides o p p fun _ ↦ True := by
  refine guides_updateState fun s hs ↦ ?_
  have hg := hs.grounded
  have hcount (n : Nat) : s.Steady o.object { s with preemptions := n } :=
    ⟨⟨rfl, rfl, rfl⟩, hg.valid, hg.satisfiable, hg.closed, hg.names, hg.threads, hg.memory⟩
  exact (hcount _).meets ((hcount _).grounded.meets_scheduleNext thread)

theorem guides_schedule (yields : Bool) : (schedule yields : Exec σ Unit).Guides o True False fun _ ↦ True := by
  have hswitch (thread : ThreadId) (preempts : Bool) :
      (switchTo thread preempts : Exec σ Unit).Guides o True False fun _ ↦ True :=
    (guides_switchTo thread preempts).relax id False.elim
  refine guides_bind guides_state fun s _ ↦ guides_bind guides_executor fun e _ ↦ ?_
  dsimp only
  split
  · exact guides_fail_bind _
  · split
    · refine guides_bind (guides_branch_true (by simp)) fun arms harms ↦ ?_
      refine guides_bind (guides_forIn ?_) fun _ _ ↦ guides_pure trivial
      rintro ⟨arm, thread⟩ hmem
      have hfresh := harms arm (List.of_mem_zip hmem).1
      exact guides_bind (guides_onSide hfresh (hswitch _ _)) fun _ _ ↦ guides_pure rfl
    · split
      · exact hswitch _ _
      · split
        · exact guides_fail _
        · exact hswitch _ _

theorem guides_knownArgument {argument : Expr} (h : argument.Determined o.apart) (intrinsic : String) :
    (knownArgument argument intrinsic : Exec σ Nat).Guides o p p fun _ ↦ True := by
  refine guides_bind (guides_toUnique h) fun v _ ↦ ?_
  split
  · exact guides_pure trivial
  · exact guides_fail _

theorem guides_createThread {function argument : Expr} (hfunction : function.Determined o.apart)
    (hargument : argument.Determined o.apart) (destination : Option Register) :
    (createThread function argument destination : Exec σ Unit).Guides o p p fun _ ↦ True := by
  refine guides_bind (guides_knownArgument hfunction _) fun address _ ↦ guides_bind guides_executor fun e _ ↦ ?_
  dsimp only
  split
  · exact guides_fail _
  · rename_i id _
    refine guides_bind (guides_lift_any _) fun callee _ ↦ ?_
    split
    · exact guides_fail_bind _
    · intro held focus hf
      have hs := hf.spans
      have hcreated := hs.grounded.createThread id callee.registers
      have hend {s : State} (h : focus.state.Steady o.object s) : (do
          setState s
          writeResult destination (← Expr.constant (focus.state.createThread id callee.registers).1 64) :
            Exec σ Unit).GuidesAt o held focus p fun _ _ ↦ True := by
        refine guidesAt_bind (guidesAt_setState hf h) fun _ f hf _ ↦ ?_
        refine (guides_bind (guides_lift (Expr.meets_constant (L := o.apart) _ _)) fun _ hconst ↦ ?_) held f hf
        exact guides_writeResult destination hconst.1
      refine ends_bind_ok rfl ?_
      dsimp only
      split
      · split
        · rename_i t ht
          have hgrounded := hcreated.grounded
          refine guidesAt_bind (guidesAt_lift (Thread.Determined.meets_modifyFrame (hgrounded.of_thread? ht)
            fun f hframe ↦ hframe.meets_write 0 ?_) hf) ?_
          · rw [hcreated.like_eq]
            exact hargument.mono hs.like_le
          · rintro t' f hf ⟨rfl, ht'⟩
            exact ends_bind_ok rfl (hend (hcreated.trans (hgrounded.setThread ht')))
        · exact ends_bind_ok rfl (hend hcreated)
      · exact ends_bind_ok rfl (hend hcreated)

theorem guides_exitThread : (exitThread : Exec σ Unit).Guides o True False fun _ ↦ True := by
  refine guides_bind (guides_updateState fun s hs ↦ hs.grounded.meets_terminateThread _) fun _ _ ↦ ?_
  refine guides_bind guides_state fun s _ ↦ ?_
  split
  · exact guides_terminateOnExit
  · exact guides_schedule _

theorem guides_sleep {list : Expr} (h : list.Determined o.apart) :
    (sleep list : Exec σ Unit).Guides o True False fun _ ↦ True := by
  refine guides_bind (guides_knownArgument h _) fun n _ ↦ ?_
  exact guides_bind (guides_updateState fun _ hs ↦ hs.grounded.meets_sleep n) fun _ _ ↦ guides_schedule _

theorem guides_notify {list : Expr} (h : list.Determined o.apart) (all : Bool) :
    (notify list all : Exec σ Unit).Guides o p p fun _ ↦ True := by
  refine guides_bind (guides_knownArgument h _) fun list _ ↦ ?_
  split
  · exact guides_updateState fun _ hs ↦ Checked.ends_pure hs.grounded.wake
  · refine guides_bind guides_state fun s _ ↦ ?_
    split
    · exact guides_updateState fun _ hs ↦ Checked.ends_pure hs.grounded.wake
    · exact guides_pure trivial

/-! ## Floating point -/

section

variable {lhs rhs value : Expr}

theorem guides_floatOperand (h : value.Determined o.apart) :
    (floatOperand value : Exec σ _).Guides o p p fun _ ↦ True :=
  guides_bind (guides_toConstant h) fun _ _ ↦ guides_pure trivial

theorem guides_floatFormat (width : Nat) : (floatFormat width : Exec σ _).Guides o p p fun _ ↦ True := by
  unfold floatFormat
  split
  · exact guides_pure trivial
  · exact guides_fail _

theorem guides_writeConstant (r : Register) (value width : Nat) :
    (do write r (← Expr.constant value width) : Exec σ Unit).Guides o p p fun _ ↦ True :=
  guides_bind (guides_lift (Expr.meets_constant (L := o.apart) _ _)) fun _ h ↦ guides_write r h.1

theorem guides_floatBinary (op : FloatOp) (hl : lhs.Determined o.apart) (hr : rhs.Determined o.apart)
    (r : Register) : (floatBinary op lhs rhs r : Exec σ Unit).Guides o p p fun _ ↦ True := by
  refine guides_bind (guides_floatOperand hl) fun a _ ↦ guides_bind (guides_floatOperand hr) fun b _ ↦ ?_
  dsimp only
  split
  · exact guides_fail_bind _
  · exact guides_bind (guides_floatFormat _) fun _ _ ↦ guides_bind guides_executor fun _ _ ↦
      guides_writeConstant _ _ _

theorem guides_floatCompare (q : FloatPredicate) (hl : lhs.Determined o.apart) (hr : rhs.Determined o.apart)
    (r : Register) : (floatCompare q lhs rhs r : Exec σ Unit).Guides o p p fun _ ↦ True := by
  refine guides_bind (guides_floatOperand hl) fun a _ ↦ guides_bind (guides_floatOperand hr) fun b _ ↦ ?_
  refine guides_bind (guides_floatFormat _) fun _ _ ↦ guides_bind (guides_floatFormat _) fun _ _ ↦ ?_
  exact guides_write r (Expr.determined_bool _)

theorem guides_floatCast (op : FloatCastOp) (h : value.Determined o.apart) (width : Nat) (r : Register) :
    (floatCast op value width r : Exec σ Unit).Guides o p p fun _ ↦ True := by
  refine guides_bind (guides_floatOperand h) fun q _ ↦ ?_
  have hformat (w : Nat) (f : Ieee.Format → Nat) :
      (do write r (← Expr.constant (f (← floatFormat w)) width) : Exec σ Unit).Guides o p p fun _ ↦ True :=
    guides_bind (guides_floatFormat w) fun _ _ ↦ guides_writeConstant _ _ _
  cases op with
  | narrow => exact guides_bind (guides_floatFormat _) fun _ _ ↦ hformat _ _
  | widen => exact guides_bind (guides_floatFormat _) fun _ _ ↦ hformat _ _
  | toUnsigned => exact hformat _ _
  | toSigned => exact hformat _ _
  | ofUnsigned => exact hformat _ _
  | ofSigned => exact guides_bind (guides_lift_any _) fun _ _ ↦ hformat _ _

end

/-! ## Calls of the host -/

theorem guides_hostArgument (name : String) {argument : Expr} (h : argument.Determined o.apart) :
    (hostArgument name argument : Exec σ Nat).Guides o p p fun _ ↦ True := by
  refine guides_bind (guides_toUnique h) fun v hv ↦ ?_
  split
  · exact guides_pure trivial
  · refine guides_bind guides_executor fun e _ ↦ ?_
    split
    · exact guides_bind (guides_toConstant hv.1) fun _ _ ↦ guides_pure trivial
    · exact guides_fail _

section

variable {arguments : List Expr} (harguments : ∀ e ∈ arguments, e.Determined o.apart)
include harguments

theorem guides_callHost (name : String) (resultWidth : Option Nat) (destination : Option Register) :
    (callHost name resultWidth arguments destination : Exec σ Unit).Guides o p p fun _ ↦ True := by
  refine guides_bind guides_executor fun e _ ↦ ?_
  dsimp only
  split
  · refine guides_bind (guides_mapM fun a ha ↦ guides_hostArgument name (harguments a ha)) fun values _ ↦ ?_
    refine guides_bind guides_state fun s _ ↦ guides_bind guides_executor fun e _ ↦ ?_
    refine guides_bind (guides_modifyExecutor fun _ ↦ ⟨rfl, rfl, rfl, rfl, rfl, rfl⟩) fun _ _ ↦ ?_
    split
    · exact guides_fail _
    · intro held focus hf
      have hs := hf.spans.grounded
      refine ends_bind_ok rfl (guidesAt_bind (guidesAt_lift (hs.memory.meets_copyIn _) hf) ?_)
      rintro ⟨done, memory⟩ f hf ⟨rfl, hm⟩
      dsimp only at hm ⊢
      split
      · refine guidesAt_bind (guidesAt_updateState (P := fun _ ↦ True)
          (Checked.ends_pure ⟨hs.withMemory hm, trivial⟩) hf) fun _ g hg _ ↦ ?_
        split
        · exact guidesAt_pure hg trivial
        · exact guidesAt_fail _ hg
        · exact guides_writeConstant _ _ _ held g hg
      · exact guides_fail_bind _ held f hf
  · exact guides_fail_bind _

end

/-! ## Calls -/

section

variable {arguments : List Expr} (harguments : ∀ e ∈ arguments, e.Determined o.apart)
include harguments

theorem guides_enterFrame (id : FunctionId) (callee : Function) (destination : Option Register)
    (varargs : Option MemoryObject) : (do
      let caller : CallSite := ⟨(← executor).location, destination⟩
      updateState fun s ↦ do
        let s ← s.pushFrame (some caller) id callee.registers
        let s ← (arguments.take callee.parameters).zipIdx.foldlM
          (fun s (argument, i) ↦ s.write i argument) s
        let s ← s.modifyFrame fun f ↦ return { f with varargs }
        s.modifyThread fun t ↦ return { t with pc := .entry id, incoming := none } :
          Exec σ Unit).Guides o p p fun _ ↦ True := by
  refine guides_bind guides_executor fun e _ ↦ guides_updateState fun s hs ↦ ?_
  refine Checked.ends_bind (hs.grounded.meets_pushFrame _ _ _) fun s₁ hs₁ ↦ ?_
  refine Checked.ends_bind (Checked.ends_foldlM (P := s.Steady o.object) hs₁ ?_) fun s₂ hs₂ ↦ ?_
  · rintro ⟨argument, i⟩ hmem s' hs'
    have hargument := harguments argument (List.mem_of_mem_take (List.fst_mem_of_mem_zipIdx hmem))
    refine hs'.meets (hs'.grounded.meets_write i ?_)
    rw [hs'.like_eq]
    exact hargument.mono hs.like_le
  · refine Checked.ends_bind (P := s.Steady o.object) ?_ fun s₃ hs₃ ↦ ?_
    · exact hs₂.meets (hs₂.grounded.meets_modifyFrame fun f hf ↦ Checked.ends_pure hf)
    · exact hs₃.meets (hs₃.grounded.meets_modifyThread fun t ht ↦ Checked.ends_pure ht)

variable (hall : ∀ x, o.object x)
include hall

theorem guides_storeVarargs : (storeVarargs arguments : Exec σ MemoryObject).Guides o p p fun _ ↦ True := by
  intro held focus hf
  refine ends_bind_ok rfl ?_
  dsimp only
  split
  · exact guidesAt_fail _ hf
  · rename_i object allocator pool _
    have hs := hf.spans
    have hpool : focus.state.Steady o.object { focus.state with pool } := by
      have hg := hs.grounded
      exact ⟨⟨rfl, rfl, rfl⟩, hg.valid, hg.satisfiable, hg.closed, hg.names, hg.threads, hg.memory⟩
    have haligned : ({ focus with executor.allocator := allocator } : Focus σ).Guided o held p True :=
      hf.aligns ⟨rfl, rfl, rfl, rfl, rfl, rfl⟩
    have hf' := haligned.withState hpool
    refine ends_bind_ok rfl (GuidesAt.after ?_ (show _ = focus.state.id from rfl))
    refine guidesAt_bind (guidesAt_lift (ObjectState.meets_zeroed (L := focus.state.like) object) hf') ?_
    rintro contents _ - ⟨rfl, hc, -⟩
    refine guidesAt_bind (guidesAt_foldlM (J := fun (c : ObjectState) f ↦
      f = { focus with executor.allocator := allocator, state := { focus.state with pool } } ∧
        c.Determined focus.state.like) hf' ⟨rfl, hc⟩ ?_) ?_
    · rintro ⟨argument, slot⟩ hmem c f hf ⟨rfl, hc⟩
      have hargument := (harguments argument (List.fst_mem_of_mem_zipIdx hmem)).mono hs.like_le
      refine guidesAt_bind (guidesAt_lift (hargument.mkZext 64) hf) ?_
      rintro value f hf ⟨rfl, hvalue⟩
      refine (guidesAt_lift (hc.write (Expr.determined_pointer _) hvalue.1) hf).mono id fun c' f h ↦ ?_
      exact ⟨h.1, h.2.1⟩
    · rintro c f hf ⟨rfl, hc⟩
      refine guidesAt_bind (guidesAt_updateState (P := fun _ ↦ True) ?_ hf) fun _ f hf _ ↦ guidesAt_pure hf trivial
      exact Checked.ends_bind (hpool.grounded.meets_bind hc (hall _)) fun _ h ↦ Checked.ends_pure ⟨h, trivial⟩

theorem guides_enter (id : FunctionId) (callee : Function) (destination : Option Register) :
    (enter id callee arguments destination : Exec σ Unit).Guides o p p fun _ ↦ True := by
  have hpush := guides_enterFrame (σ := σ) (p := p) harguments id callee destination
  unfold enter
  dsimp only
  split
  · exact guides_fail_bind _
  · split
    · refine guides_bind (R := fun _ ↦ True) ?_ fun varargs _ ↦ hpush varargs
      rw [map_eq_pure_bind]
      refine guides_bind (guides_storeVarargs (fun e he ↦ ?_) hall) fun _ _ ↦ guides_pure trivial
      exact harguments e (List.mem_of_mem_drop he)
    · exact guides_bind (R := fun _ ↦ True) (guides_pure trivial) fun varargs _ ↦ hpush varargs

theorem guides_call (id : FunctionId) (destination : Option Register) :
    (call id arguments destination : Exec σ Unit).Guides o p p fun _ ↦ True := by
  refine guides_bind guides_executor fun e _ ↦ guides_bind (guides_lift_any _) fun callee _ ↦ ?_
  split
  · exact guides_callHost harguments _ _ _
  · exact guides_enter harguments hall _ _ _

theorem guides_callAddress (address : Nat) (destination : Option Register) :
    (callAddress address arguments destination : Exec σ Unit).Guides o p p fun _ ↦ True := by
  refine guides_bind guides_executor fun e _ ↦ ?_
  split
  · exact guides_fail _
  · exact guides_call harguments hall _ _

theorem guides_callEach {pointer : Expr} (hpointer : pointer.Determined o.apart) (destination : Option Register)
    (fuel resolved : Nat) {free : Option Branch} (hfree : o.FreshAt free) :
    (callEach pointer arguments destination fuel resolved free : Exec σ Unit).Guides o p False fun _ ↦ True := by
  induction fuel generalizing resolved free p with
  | zero =>
    cases free with
    | none => exact (guides_pure trivial).relax id False.elim
    | some branch => exact (guides_lift_any _).relax id False.elim
  | succ fuel ih =>
    cases free with
    | none => exact (guides_pure trivial).relax id False.elim
    | some branch =>
      refine guides_bind guides_executor fun e _ ↦ ?_
      dsimp only
      split
      · exact guides_onSide hfree (guides_terminateEarly _)
      · refine guides_bind (guides_onBranch (hfree _ rfl) (guides_value hpointer.wellFormed)) fun found hfound ↦ ?_
        split
        · rename_i value
          refine guides_bind (guides_lift (hpointer.mkCompare .eq (hfound value rfl).1)) fun same hsame ↦ ?_
          refine guides_bind (p := False) (q := False) (R := fun sides : Sides ↦ o.FreshAt sides.1 ∧ o.FreshAt sides.2)
            (fun held f hf ↦ ?_) fun sides hsides ↦ ?_
          · exact (guidesAt_forkOn (hfree _ rfl) hf hsame.1 hsame.2 true).mono id fun _ _ h ↦ ⟨h.inside, h.outside⟩
          · exact guides_bind (guides_onSide hsides.1 (guides_callAddress harguments hall _ _)) fun _ _ ↦
              ih _ hsides.2
        · exact guides_pure trivial

theorem guides_callPointer {pointer : Expr} (hpointer : pointer.Determined o.apart)
    (destination : Option Register) :
    (callPointer pointer arguments destination : Exec σ Unit).Guides o p False fun _ ↦ True :=
  guides_callEach harguments hall hpointer _ _ _ Outset.freshAt_current

end

theorem guides_ret {value : Option Expr} (hvalue : ∀ e, value = some e → e.Determined o.apart) :
    (ret value : Exec σ Unit).Guides o True False fun _ ↦ True := by
  refine guides_bind guides_state fun s hs ↦ guides_bind (guides_lift_any _) fun f _ ↦ ?_
  split
  · split
    · exact guides_terminateOnExit
    · exact guides_exitThread
  · refine guides_bind (guides_updateState fun s hs ↦ ?_) fun _ _ ↦ ?_
    · exact Checked.ends_bind hs.grounded.meets_popFrame fun q hq ↦
        hq.meets (hq.grounded.meets_modifyThread fun t ht ↦ Checked.ends_pure ht)
    · refine Guides.relax (p := True) (q := True) ?_ id fun _ ↦ trivial
      split
      · exact guides_pure trivial
      · exact guides_fail _
      · exact guides_write _ (hvalue _ rfl)

end Exec

end Symex
