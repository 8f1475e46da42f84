import Symex.Proofs.Descent.Objects

namespace Symex

open Checked

variable {σ α : Type} {p : Prop} {destination : Option Register}

namespace Exec

theorem seats_setState_bind {f : Focus σ} {held : List State} {s : State} {k : Unit → Exec σ α} (hf : f.Seated held)
    (hfirm : p → f.Firm) (hs : f.state.Beside s) (hk : (k ()).Seats p p) :
    (setState s >>= k).Ends (· ≠ .misuse) f fun _ g ↦ f.Follows held g ∧ (p → g.Firm) := by
  have hset : f.Follows held { f with state := s } := .withState hf hs
  refine ends_bind_ok rfl ((hk held _ hset.seated fun hp ↦ hs.sits (hfirm hp)).mono fun _ _ h ↦ ⟨hset.trans h.1, h.2⟩)

theorem seats_knownArgument (argument : Expr) (intrinsic : String) :
    (knownArgument argument intrinsic : Exec σ Nat).Seats p p := by
  refine seats_bind (seats_toUnique argument) fun value ↦ ?_
  split
  · exact seats_pure _
  · exact seats_fail _

theorem seats_createThread (function argument : Expr) (destination : Option Register) :
    (createThread function argument destination : Exec σ Unit).Seats p p := by
  refine seats_bind (seats_knownArgument _ _) fun address ↦ seats_bind seats_executor fun e ↦ ?_
  dsimp only
  split
  · exact seats_fail _
  · rename_i id _
    refine seats_bind (seats_lift (e.program.fair_function id)) fun callee ↦ ?_
    split
    · exact seats_fail_bind _
    · intro held f hf hfirm
      refine ends_bind_ok rfl ?_
      have hcreated := f.state.beside_createThread id callee.registers
      have hset (s : State) (hs : f.state.Beside s) : (do
          setState s
          writeResult destination (← Expr.constant (f.state.createThread id callee.registers).1 64) :
            Exec σ Unit).Ends (· ≠ .misuse) f fun _ g ↦ f.Follows held g ∧ (p → g.Firm) :=
        seats_setState_bind hf hfirm hs (seats_bind (seats_lift (Expr.plain_constant _ _).fair) fun _ ↦
          seats_writeResult _ _)
      split
      · split
        · rename_i t _
          refine ends_lift_bind ((t.fair_modifyFrame fun f ↦ f.fair_write 0 argument).mono fun u _ ↦ ?_)
          exact ends_bind_ok rfl (hset _ (hcreated.trans (State.beside_setThread _ u)))
        · exact ends_bind_ok rfl (hset _ hcreated)
      · exact ends_bind_ok rfl (hset _ hcreated)

theorem seats_exitThread : (exitThread : Exec σ Unit).Seats True True := by
  refine seats_bind (seats_updateState fun s ↦ s.fair_terminateThread _) fun _ ↦ seats_bind seats_state fun s ↦ ?_
  split
  · exact seats_terminateWith _ _
  · exact seats_schedule _

theorem seats_sleep (list : Expr) : (sleep list : Exec σ Unit).Seats True True :=
  seats_bind (seats_knownArgument _ _) fun _ ↦ seats_bind (seats_updateState fun s ↦ s.fair_sleep _) fun _ ↦
    seats_schedule _

theorem seats_notify (list : Expr) (all : Bool) : (notify list all : Exec σ Unit).Seats p p := by
  refine seats_bind (seats_knownArgument _ _) fun list ↦ ?_
  split
  · exact seats_updateState fun s ↦ Checked.ends_pure (s.beside_notifyAll list)
  · refine seats_bind seats_state fun s ↦ ?_
    split
    · exact seats_updateState fun s ↦ Checked.ends_pure (s.beside_notifyOne list _)
    · exact seats_pure _

theorem seats_floatOperand (e : Expr) : (floatOperand e : Exec σ _).Seats p p :=
  seats_bind (seats_toConstant e) fun _ ↦ seats_pure _

theorem seats_floatFormat (width : Nat) : (floatFormat width : Exec σ _).Seats p p := by
  unfold floatFormat
  split
  · exact seats_pure _
  · exact seats_fail _

theorem seats_writeConstant (r : Register) (value width : Nat) :
    (do write r (← Expr.constant value width) : Exec σ Unit).Seats p p :=
  seats_bind (seats_lift (Expr.plain_constant _ _).fair) fun _ ↦ seats_write _ _

theorem seats_floatBinary (op : FloatOp) (lhs rhs : Expr) (destination : Register) :
    (floatBinary op lhs rhs destination : Exec σ Unit).Seats p p := by
  refine seats_bind (seats_floatOperand lhs) fun a ↦ seats_bind (seats_floatOperand rhs) fun b ↦ ?_
  dsimp only
  split
  · exact seats_fail_bind _
  · exact seats_bind (seats_floatFormat _) fun _ ↦ seats_bind seats_executor fun _ ↦ seats_writeConstant _ _ _

theorem seats_floatCompare (predicate : FloatPredicate) (lhs rhs : Expr) (destination : Register) :
    (floatCompare predicate lhs rhs destination : Exec σ Unit).Seats p p :=
  seats_bind (seats_floatOperand lhs) fun _ ↦ seats_bind (seats_floatOperand rhs) fun _ ↦
    seats_bind (seats_floatFormat _) fun _ ↦ seats_bind (seats_floatFormat _) fun _ ↦ seats_write _ _

theorem seats_floatCast (op : FloatCastOp) (value : Expr) (width : Nat) (destination : Register) :
    (floatCast op value width destination : Exec σ Unit).Seats p p := by
  have hend (result : Nat) := @seats_writeConstant σ p destination result width
  refine seats_bind (seats_floatOperand value) fun q ↦ ?_
  have hconvert : (do
      let wide := Ieee.convert (← floatFormat q.2) Ieee.double q.1
      let result ← pure (Ieee.convert Ieee.double (← floatFormat width) wide)
      write destination (← Expr.constant result width) : Exec σ Unit).Seats p p :=
    seats_bind (seats_floatFormat _) fun _ ↦ seats_bind (seats_floatFormat _) fun _ ↦
      seats_bind (seats_pure _) hend
  cases op with
  | narrow => exact hconvert
  | widen => exact hconvert
  | toUnsigned => exact seats_bind (seats_floatFormat _) fun _ ↦ seats_bind (seats_pure _) hend
  | toSigned => exact seats_bind (seats_floatFormat _) fun _ ↦ seats_bind (seats_pure _) hend
  | ofUnsigned => exact seats_bind (seats_floatFormat _) fun _ ↦ seats_bind (seats_pure _) hend
  | ofSigned =>
    exact seats_bind (seats_lift (Bits.plain_toSignedChecked _ _).fair) fun _ ↦
      seats_bind (seats_floatFormat _) fun _ ↦ seats_bind (seats_pure _) hend

theorem seats_hostArgument (name : String) (argument : Expr) : (hostArgument name argument : Exec σ Nat).Seats p p := by
  refine seats_bind (seats_toUnique argument) fun value ↦ ?_
  split
  · exact seats_pure _
  · refine seats_bind seats_executor fun _ ↦ ?_
    split
    · exact seats_bind (seats_toConstant _) fun _ ↦ seats_pure _
    · exact seats_fail _

theorem seats_callHost (name : String) (resultWidth : Option Nat) (arguments : List Expr)
    (destination : Option Register) :
    (callHost name resultWidth arguments destination : Exec σ Unit).Seats p p := by
  refine seats_bind seats_executor fun e ↦ ?_
  dsimp only
  split
  · refine seats_bind (seats_mapM fun argument _ ↦ seats_hostArgument name argument) fun values ↦
      seats_bind seats_state fun s ↦ seats_bind seats_executor fun e ↦ ?_
    refine seats_bind (seats_modifyExecutor (fun _ ↦ rfl) (fun _ _ h ↦ h) (fun _ ↦ rfl) fun _ ↦ rfl) fun _ ↦ ?_
    split
    · exact seats_fail _
    · refine seats_bind seats_state fun s ↦ seats_bind (seats_lift (s.memory.fair_copyIn _)) fun q ↦ ?_
      have hmemory (memory : AddressSpace) : (updateState fun s ↦ return { s with memory } :
          Exec σ Unit).Seats p p :=
        seats_updateState fun s ↦ Checked.ends_pure (State.beside_of_eq rfl rfl rfl rfl)
      split
      · refine seats_bind (hmemory _) fun _ ↦ ?_
        split
        · exact seats_pure _
        · exact seats_fail _
        · exact seats_writeConstant _ _ _
      · exact seats_fail_bind _
  · exact seats_fail_bind _

theorem seats_bindVarargs (arguments : List Expr) (object : MemoryObject) (contents : ObjectState) : (do
      let contents ← arguments.zipIdx.foldlM (fun (c : ObjectState) (argument, slot) ↦ do
        c.write (.pointer (slot * varargBytes)) (← Expr.mkZext argument 64)) contents
      updateState fun s ↦ return { s with memory := ← s.memory.bind contents }
      return object : Exec σ MemoryObject).Seats p p := by
  refine seats_bind (seats_foldlM fun x q _ ↦ seats_bind (seats_lift (Expr.plain_mkZext q.1 64).fair) fun value ↦
    seats_lift (x.found_write value _).fair) fun contents ↦ ?_
  exact seats_bind (seats_updateState fun s ↦ s.fair_memory (s.memory.fair_bind contents)) fun _ ↦ seats_pure _

theorem seats_storeVarargs (arguments : List Expr) : (storeVarargs arguments : Exec σ MemoryObject).Seats p p := by
  intro held f hf hfirm
  refine ends_bind_ok rfl ?_
  dsimp only
  split
  · exact seats_fail _ held f hf hfirm
  · rename_i object allocator pool _
    have hexecutor : f.Follows held ⟨{ f.executor with allocator }, f.state⟩ :=
      .withExecutor hf rfl (fun _ h ↦ h) rfl rfl
    have hbeside : f.state.Beside { f.state with pool } := State.beside_of_eq rfl rfl rfl rfl
    have hplace := hexecutor.trans (.withState hexecutor.seated hbeside)
    have hstore := seats_bind (p := p) (seats_lift (ObjectState.found_zeroed object).fair)
      (seats_bindVarargs (σ := σ) arguments object)
    exact ends_bind_ok rfl ((hstore held _ hplace.seated fun hp ↦ hbeside.sits (hfirm hp)).mono
      fun _ _ h ↦ ⟨hplace.trans h.1, h.2⟩)

theorem fair_entered (caller : CallSite) (id : FunctionId) (callee : Function) (arguments : List Expr)
    (varargs : Option MemoryObject) (s : State) : Fair (do
      let s ← s.pushFrame (some caller) id callee.registers
      let s ← (arguments.take callee.parameters).zipIdx.foldlM (fun s (argument, i) ↦ s.write i argument) s
      let s ← s.modifyFrame fun f ↦ return { f with varargs }
      s.modifyThread fun t ↦ return { t with pc := .entry id, incoming := none }) s.Beside := by
  refine Checked.ends_bind (s.fair_pushFrame _ _ _) fun s₁ h₁ ↦
    Checked.ends_bind (s₁.fair_writes _) fun s₂ h₂ ↦
      Checked.ends_bind (s₂.fair_modifyFrame fun _ ↦ Checked.ends_pure trivial) fun s₃ h₃ ↦ ?_
  exact (s₃.fair_modifyThread fun _ ↦ Checked.ends_pure trivial).mono fun _ h₄ ↦
    ((h₁.trans h₂).trans h₃).trans h₄

theorem seats_enter (id : FunctionId) (callee : Function) (arguments : List Expr) (destination : Option Register) :
    (enter id callee arguments destination : Exec σ Unit).Seats p p := by
  unfold enter
  dsimp only
  split
  · exact seats_fail_bind _
  · split
    · rw [map_eq_pure_bind]
      exact seats_bind (seats_bind (seats_storeVarargs _) fun _ ↦ seats_pure _) fun varargs ↦
        seats_bind seats_executor fun e ↦ seats_updateState (fair_entered _ id callee arguments varargs)
    · exact seats_bind (seats_pure _) fun varargs ↦
        seats_bind seats_executor fun e ↦ seats_updateState (fair_entered _ id callee arguments varargs)

theorem seats_call (id : FunctionId) (arguments : List Expr) (destination : Option Register) :
    (call id arguments destination : Exec σ Unit).Seats p p := by
  refine seats_bind seats_executor fun e ↦ seats_bind (seats_lift (e.program.fair_function id)) fun callee ↦ ?_
  split
  · exact seats_callHost _ _ _ _
  · exact seats_enter _ _ _ _

theorem seats_callAddress (address : Nat) (arguments : List Expr) (destination : Option Register) :
    (callAddress address arguments destination : Exec σ Unit).Seats p p := by
  refine seats_bind seats_executor fun e ↦ ?_
  split
  · exact seats_fail _
  · exact seats_call _ _ _

theorem seats_callEach (pointer : Expr) (arguments : List Expr) (destination : Option Register)
    (fuel resolved : Nat) (free : Option Branch) :
    (callEach pointer arguments destination fuel resolved free : Exec σ Unit).Seats p p := by
  induction fuel generalizing resolved free with
  | zero =>
    cases free with
    | none => exact seats_pure _
    | some branch => exact seats_lift (P := fun _ ↦ True) (Checked.ends_throw (by decide))
  | succ fuel ih =>
    cases free with
    | none => exact seats_pure _
    | some branch =>
      refine seats_bind seats_executor fun e ↦ ?_
      dsimp only
      split
      · exact seats_onSide _ (seats_terminateWith _ _) (fun h ↦ h) fun _ ↦ trivial
      · refine seats_bind (seats_onBranch branch (seats_query (p := True) fun c ↦ Solver.looks_value c pointer)
          (fun h ↦ h) fun _ ↦ trivial) fun value ↦ ?_
        split
        · refine seats_bind (seats_lift (Expr.plain_mkEq _ _).fair) fun same ↦
            seats_bind (seats_forkOn branch same true) fun sides ↦ ?_
          exact seats_bind (seats_onSide sides.1 (seats_callAddress (p := True) _ _ _) (fun h ↦ h) fun _ ↦ trivial)
            fun _ ↦ ih _ _
        · exact seats_pure _

theorem seats_callPointer (pointer : Expr) (arguments : List Expr) (destination : Option Register) :
    (callPointer pointer arguments destination : Exec σ Unit).Seats p p :=
  seats_callEach pointer arguments destination wordLimit 0 (some .current)

theorem fair_returned (next : Location) (s : State) : Fair (do
      let (_, s) ← s.popFrame
      s.modifyThread fun t ↦ return { t with pc := next }) s.Beside :=
  Checked.ends_bind s.fair_popFrame fun q hq ↦ (q.2.fair_modifyThread fun _ ↦ Checked.ends_pure trivial).mono
    fun _ h ↦ hq.trans h

theorem seats_ret (value : Option Expr) : (ret value : Exec σ Unit).Seats True True := by
  refine seats_bind seats_state fun s ↦ seats_bind (seats_lift s.fair_frame) fun frame ↦ ?_
  split
  · split
    · exact seats_terminateWith _ _
    · exact seats_exitThread
  · rename_i caller _
    refine seats_bind (seats_updateState (fair_returned caller.call.next)) fun _ ↦ ?_
    split
    · exact seats_pure _
    · exact seats_fail _
    · exact seats_write _ _

end Exec

end Symex
