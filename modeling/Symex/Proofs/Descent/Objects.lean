import Symex.Proofs.Descent.Arms

namespace Symex

open Checked

variable {σ α : Type} {p : Prop}

namespace AddressSpace

variable (m : AddressSpace) (c : ConstraintSet) (address : Expr)

theorem looks_resolveSymbolic_any : (m.resolveSymbolic c address : Ask σ _).Looks fun _ ↦ True := by
  unfold resolveSymbolic
  split
  · exact Ask.looks_pure trivial
  · refine Ask.looks_bind (Solver.looks_value c address) fun v _ ↦ ?_
    dsimp only
    split
    · exact Ask.looks_pure trivial
    · refine Ask.looks_bind (looks_firstPossible c address (fun _ _ ↦ Expr.plain_mkCompare _ _ _) _) fun r _ ↦ ?_
      split
      · exact Ask.looks_pure trivial
      · exact fun s ↦ (looks_firstPossible c address (fun _ _ ↦ Expr.plain_mkCompare _ _ _) _ s).mono
          fun _ _ _ _ ↦ trivial

theorem looks_resolve_any (limit : Nat) (timeout : Option Nat) :
    Looks (m.resolve c address limit timeout : StateT (Solver σ) Checked _) fun _ ↦ True := by
  unfold resolve
  split
  · exact looks_pure trivial
  · refine looks_bind Solver.looks_now fun _ _ ↦ looks_bind (Solver.looks_value c address) fun r _ ↦ ?_
    split
    · exact looks_pure trivial
    · refine looks_bind (looks_sweep c address (fun _ _ ↦ Expr.plain_mkCompare _ _ _) _ _ _ _ _) fun _ _ ↦ ?_
      dsimp only
      split
      · exact looks_bind (looks_sweep c address (fun _ _ ↦ Expr.plain_mkCompare _ _ _) _ _ _ _ _)
          fun _ _ ↦ looks_pure trivial
      · exact looks_bind (looks_pure (P := fun _ ↦ True) trivial) fun _ _ ↦ looks_pure trivial

end AddressSpace

namespace Exec

/-! ## Access -/

theorem seats_perform (access : Access) (object : MemoryObject) (offset : Expr) :
    (perform access object offset : Exec σ Unit).Seats p p := by
  refine seats_bind seats_state fun s ↦ ?_
  split
  · exact seats_fail _
  · rename_i contents _
    cases access with
    | load width destination =>
      exact seats_bind (seats_lift (contents.plain_read offset width).fair) fun value ↦ seats_write _ value
    | store value =>
      have hstore : (updateState fun s ↦ do
          return { s with memory := ← s.memory.modify object (·.write offset value) } : Exec σ Unit).Seats p p :=
        seats_updateState fun s ↦ s.fair_memory (s.memory.fair_modify object fun x ↦
          (x.found_write value offset).fair.mono fun _ _ ↦ trivial)
      dsimp only
      split
      · exact seats_fail_bind _
      · exact hstore

theorem seats_findObject (address : Expr) : (findObject address : Exec σ _).Seats p p := by
  refine seats_bind seats_state fun s ↦ seats_bind (seats_ask fun c ↦ s.memory.looks_resolveSymbolic_any c address)
    fun r ↦ ?_
  split
  · exact seats_pure _
  · exact seats_bind (seats_toConstant _) fun _ ↦ seats_bind seats_state fun _ ↦ seats_pure _

theorem seats_resolve (address : Expr) : (resolve address : Exec σ Resolution).Seats p p := by
  intro held f hf hfirm
  refine ends_bind_ok rfl (ends_lift_bind ((f.state.memory.looks_resolve_any _ address _ _ _).fair.mono fun q _ ↦ ?_))
  exact ends_bind_ok rfl (ends_pure ⟨.withExecutor hf rfl (fun _ h ↦ h) rfl rfl, hfirm⟩)

theorem seats_eachObject {condition : MemoryObject → Checked Expr} {work : Branch → MemoryObject → Exec σ (Option α)}
    (hcondition : ∀ object, Plain (condition object)) (hwork : ∀ b object, (work b object).Seats p p)
    (objects : List MemoryObject) (remaining : Option Branch) :
    (eachObject condition work objects remaining).Seats p p := by
  induction objects generalizing remaining with
  | nil => exact seats_pure _
  | cons object rest ih =>
    cases remaining with
    | none => exact seats_pure _
    | some branch =>
      refine seats_bind (seats_lift (hcondition object).fair) fun c ↦
        seats_bind (seats_forkOn branch c true) fun sides ↦ ?_
      obtain ⟨inside, outside⟩ := sides
      have hrest (here : Option α) : (do
          let later ← eachObject condition work rest outside
          return (here.toList ++ later.1, later.2) : Exec σ _).Seats p p :=
        seats_bind (ih outside) fun _ ↦ seats_pure _
      cases inside with
      | none => exact seats_bind (seats_pure _) hrest
      | some inside => exact seats_bind (hwork inside object) hrest

theorem seats_reportPointer (address : Expr) (e : ExecError) : (do
    let details ← addressInfo address
    terminateOnError ⟨(← executor).location, e⟩ (some details) : Exec σ Unit).Seats p p :=
  seats_bind (seats_addressInfo address) fun _ ↦ seats_bind seats_executor fun _ ↦ seats_terminateOnError _ _

theorem seats_accessEach (access : Access) (address : Expr) :
    (accessEach access address : Exec σ Unit).Seats p p := by
  refine seats_bind (seats_resolve address) fun resolution ↦
    seats_bind (seats_lift (Bits.plain_byteCountChecked _).fair) fun bytes ↦ ?_
  refine seats_bind (seats_eachObject (fun object ↦ object.plain_pointerAccessInside address bytes)
    (fun b object ↦ ?_) _ _) fun q ↦ ?_
  · have hperform : (do perform access object (← object.offset address) : Exec σ Unit).Seats True True :=
      seats_bind (seats_lift (object.plain_offset address).fair) fun offset ↦ seats_perform access object offset
    exact seats_onBranch b hperform (fun h ↦ h) fun _ ↦ trivial
  · refine seats_onSide q.2 (q := True) ?_ (fun h ↦ h) fun _ ↦ trivial
    split
    · exact seats_terminateWith _ _
    · exact seats_reportPointer address _

theorem seats_accessWithin (access : Access) (address offset : Expr) (object : MemoryObject) (bytes : Nat) : (do
      let inside ← object.accessInside offset bytes
      if ← query (Solver.mustBeTrue · inside) then perform access object offset
      else accessEach access address : Exec σ Unit).Seats p p := by
  refine seats_bind (seats_lift (object.plain_accessInside offset bytes).fair) fun inside ↦
    seats_bind (seats_query fun c ↦ Solver.looks_mustBeTrue c inside) fun certain ↦ ?_
  split
  · exact seats_perform access object offset
  · exact seats_accessEach access address

theorem seats_accessFound (config : Config) (access : Access) (address : Expr) (bytes : Nat) : (do
      let (found, address) ← findObject address
      match found with
      | none => accessEach access address
      | some object =>
        let offset ← object.offset address
        let large := config.maxSymbolicArraySize ≠ 0 ∧ config.maxSymbolicArraySize ≤ object.size
        let offset ← if large ∧ !offset.isConst then toConstant offset else pure offset
        let inside ← object.accessInside offset bytes
        if ← query (Solver.mustBeTrue · inside) then perform access object offset
        else accessEach access address : Exec σ Unit).Seats p p := by
  refine seats_bind (seats_findObject address) fun q ↦ ?_
  obtain ⟨found, address⟩ := q
  cases found with
  | none => exact seats_accessEach access address
  | some object =>
    refine seats_bind (seats_lift (object.plain_offset address).fair) fun offset ↦ ?_
    dsimp only
    split
    · exact seats_bind (seats_toConstant offset) fun offset ↦ seats_accessWithin access address offset object bytes
    · exact seats_bind (seats_pure offset) fun offset ↦ seats_accessWithin access address offset object bytes

theorem seats_access (access : Access) (address : Expr) : (Exec.access access address : Exec σ Unit).Seats p p := by
  refine seats_bind seats_executor fun e ↦ seats_bind (seats_lift (Bits.plain_byteCountChecked _).fair) fun bytes ↦
    seats_bind seats_state fun s ↦ ?_
  dsimp only
  split
  · refine seats_bind (seats_lift (s.constraints.plain_simplify address).fair) fun address ↦ ?_
    have hmap : Fair (access.mapValue s.constraints.simplify) fun _ ↦ True := by
      cases access with
      | load width destination => exact Checked.ends_pure trivial
      | store value => exact fair_bind (s.constraints.plain_simplify value).fair fun _ ↦ Checked.ends_pure trivial
    refine seats_bind (seats_lift hmap) fun access ↦ ?_
    exact seats_bind (seats_pure _) fun q ↦ seats_accessFound e.config q.2 q.1 bytes
  · exact seats_bind (seats_pure _) fun q ↦ seats_accessFound e.config q.2 q.1 bytes

theorem seats_resolveExact (address : Expr) (operation : String) :
    (resolveExact address operation : Exec σ _).Seats p p := by
  refine seats_bind (seats_resolve address) fun resolution ↦ seats_bind (seats_eachObject
    (fun _ ↦ Expr.plain_mkEq _ _) (fun _ _ ↦ seats_pure _) _ _) fun q ↦ seats_bind ?_ fun _ ↦ seats_pure _
  exact seats_onSide q.2 (seats_reportPointer address _) (fun h ↦ h) fun _ ↦ trivial

/-! ## Allocation -/

theorem seats_reserve (size : Nat) (isLocal : Bool) (site : AllocationSite) (name : String) :
    (reserve size isLocal site name : Exec σ _).Seats p p := by
  intro held f hf hfirm
  refine ends_bind_ok rfl ?_
  split
  · exact ends_pure ⟨.refl hf, hfirm⟩
  · rename_i object allocator pool _
    have hexecutor : f.Follows held ⟨{ f.executor with allocator }, f.state⟩ :=
      .withExecutor hf rfl (fun _ h ↦ h) rfl rfl
    have hbeside : f.state.Beside { f.state with pool } := State.beside_of_eq rfl rfl rfl rfl
    exact ends_bind_ok rfl (ends_pure ⟨hexecutor.trans (.withState hexecutor.seated hbeside),
      fun hp ↦ hbeside.sits (hfirm hp)⟩)

theorem seats_allocate (size : Nat) (isLocal : Bool) (destination : Option Register)
    (replaced : Option MemoryObject) : (allocate size isLocal destination replaced : Exec σ Unit).Seats p p := by
  refine seats_bind seats_executor fun e ↦ seats_bind (seats_reserve _ _ _ _) fun o ↦ ?_
  cases o with
  | none => exact seats_writeResult _ _
  | some object =>
    have hbind (contents : ObjectState) : (do
        if isLocal then updateState (·.bindLocal contents)
        else updateState fun s ↦ return { s with memory := ← s.memory.bind contents }
        writeResult destination object.base : Exec σ Unit).Seats p p := by
      split
      · exact seats_bind (seats_updateState fun s ↦ s.fair_bindLocal contents) fun _ ↦ seats_writeResult _ _
      · exact seats_bind (seats_updateState fun s ↦ s.fair_memory (s.memory.fair_bind contents)) fun _ ↦
          seats_writeResult _ _
    refine seats_bind (seats_lift (ObjectState.found_zeroed object).fair) fun contents ↦ ?_
    cases replaced with
    | none => exact seats_bind (seats_pure contents) hbind
    | some old =>
      have hmove (contents : ObjectState) : (do
          updateState (·.unbindAll [old])
          let contents ← pure contents
          if isLocal then updateState (·.bindLocal contents)
          else updateState fun s ↦ return { s with memory := ← s.memory.bind contents }
          writeResult destination object.base : Exec σ Unit).Seats p p :=
        seats_bind (seats_updateState fun s ↦ s.fair_unbindAll [old]) fun _ ↦
          seats_bind (seats_pure contents) hbind
      refine seats_bind seats_state fun s ↦ ?_
      dsimp only
      split
      · exact seats_bind (seats_lift (found_copyBytes _ contents).fair) hmove
      · exact seats_bind (seats_pure contents) hmove

theorem seats_shrink (size : Expr) (n : Nat) : (shrink size n : Exec σ Nat).Seats p p := by
  induction n using Nat.strongRecOn with
  | ind n ih =>
    rw [shrink]
    split
    · rename_i hlt
      refine seats_bind (seats_lift (Expr.plain_constant _ _).fair) fun half ↦
        seats_bind (seats_lift (Expr.plain_mkEq _ _).fair) fun half ↦
          seats_bind (seats_query fun c ↦ Solver.looks_mayBeTrue c half) fun possible ↦ ?_
      split
      · refine ih (n / 2) ?_
        simp only [smallAllocation] at hlt
        omega
      · exact seats_pure _
    · exact seats_pure _

theorem seats_allocateRest (size : Expr) (isLocal : Bool) (destination : Option Register)
    (replaced : Option MemoryObject) :
    (allocateRest size isLocal destination replaced : Exec σ Unit).Seats True True := by
  refine seats_bind (seats_query fun c ↦ Solver.looks_value c size) fun value ↦
    seats_bind (seats_lift (Expr.plain_mkEq _ _).fair) fun same ↦
      seats_bind (seats_query fun c ↦ Solver.looks_mustBeTrue c same) fun only ↦ ?_
  have hreport (location : Location) (details : Option String) :
      (terminateOnError ⟨location, .concretizedSymbolicSize⟩ details : Exec σ Unit).Seats True True :=
    seats_terminateOnError _ _
  split
  · exact seats_allocate _ _ _ _
  · refine seats_bind (seats_lift (Expr.plain_constant _ _).fair) fun _ ↦
      seats_bind (seats_lift (Expr.plain_mkCompare _ _ _).fair) fun huge ↦
        seats_bind (seats_fork huge true) fun sides ↦ ?_
    refine seats_bind (seats_onSide sides.1 (seats_writeResult _ _) (fun h ↦ h) fun h ↦ h) fun _ ↦ ?_
    exact seats_onSide sides.2 (seats_bind seats_executor fun _ ↦ hreport _ _) (fun h ↦ h) fun h ↦ h

theorem seats_allocateSized (size : Expr) (isLocal : Bool) (destination : Option Register)
    (replaced : Option MemoryObject) :
    (allocateSized size isLocal destination replaced : Exec σ Unit).Seats True True := by
  refine seats_bind (seats_lift (Expr.plain_mkZext _ _).fair) fun size ↦
    seats_bind (seats_toUnique size) fun size ↦ ?_
  split
  · exact seats_allocate _ _ _ _
  · refine seats_bind (seats_query fun c ↦ Solver.looks_value c size) fun value ↦
      seats_bind (seats_shrink size _) fun n ↦ seats_bind (seats_lift (Expr.plain_constant _ _).fair) fun _ ↦
        seats_bind (seats_lift (Expr.plain_mkEq _ _).fair) fun same ↦
          seats_bind (seats_fork same true) fun sides ↦ ?_
    refine seats_bind (seats_onSide sides.1 (seats_allocate _ _ _ _) (fun h ↦ h) fun h ↦ h) fun _ ↦ ?_
    exact seats_onSide sides.2 (seats_allocateRest _ _ _ _) (fun h ↦ h) fun h ↦ h

theorem seats_demandHeap (object : MemoryObject) : (demandHeap object : Exec σ Unit).Seats p p := by
  unfold demandHeap
  dsimp only
  split
  · exact seats_fail_bind _
  · split
    · exact seats_fail _
    · exact seats_pure _

theorem seats_onObjects (side : Option Branch) (pointer : Expr) (operation : String)
    {work : MemoryObject → Exec σ Unit} (hwork : ∀ object, (work object).Seats True True) :
    (onObjects side pointer operation work).Seats p p := by
  cases side with
  | none => exact seats_pure _
  | some side =>
    refine seats_bind (seats_onBranch side (seats_resolveExact (p := True) pointer operation) (fun h ↦ h)
      fun _ ↦ trivial) fun o ↦ ?_
    refine seats_bind (seats_forIn fun q _ _ ↦ seats_bind (seats_onSide _ (hwork q.2) (fun h ↦ h)
      fun _ ↦ trivial) fun _ ↦ seats_pure _) fun _ ↦ seats_pure _

theorem seats_free (pointer : Expr) (destination : Option Register) :
    (free pointer destination : Exec σ Unit).Seats True True := by
  refine seats_bind (seats_fork _ true) fun sides ↦
    seats_bind (seats_onSide sides.1 (seats_writeResult _ _) (fun h ↦ h) fun h ↦ h) fun _ ↦
      seats_onObjects _ _ _ fun object ↦ ?_
  exact seats_bind (seats_demandHeap object) fun _ ↦
    seats_bind (seats_updateState fun s ↦ s.fair_unbindAll [object]) fun _ ↦ seats_writeResult _ _

theorem seats_reallocate (pointer size : Expr) (destination : Option Register) :
    (reallocate pointer size destination : Exec σ Unit).Seats True True := by
  refine seats_bind (seats_lift (Expr.plain_mkZext _ _).fair) fun size ↦ seats_bind (seats_fork _ true) fun sides ↦
    seats_bind (seats_onSide sides.1 (seats_free _ _) (fun h ↦ h) fun h ↦ h) fun _ ↦
      seats_onSide sides.2 ?_ (fun h ↦ h) fun h ↦ h
  refine seats_bind (seats_fork _ true) fun sides ↦
    seats_bind (seats_onSide sides.1 (seats_allocateSized _ _ _ _) (fun h ↦ h) fun h ↦ h) fun _ ↦
      seats_onObjects _ _ _ fun object ↦ ?_
  exact seats_bind (seats_demandHeap object) fun _ ↦ seats_allocateSized _ _ _ _

/-! ## Inputs -/

theorem seats_replaceContents (object : MemoryObject) (contents : ObjectState) :
    (replaceContents object contents : Exec σ Unit).Seats p p :=
  seats_updateState fun s ↦ Checked.ends_bind (s.memory.fair_unbind object) fun m _ ↦
    s.fair_memory (m.fair_bind contents)

theorem seats_seedInputs (array : NamedArray) : (seedInputs array : Exec σ Unit).Seats p p := by
  refine seats_bind seats_seeds? fun seeds ↦ ?_
  split
  · refine seats_bind seats_executor fun e ↦ seats_bind seats_state fun s ↦ ?_
    have hgo (id : StateId) (seeds done : List Seed) :
        (seedInputs.go array e.config id done seeds : Exec σ Unit).Seats p p := by
      induction seeds generalizing done with
      | nil => exact seats_setSeeds _ _
      | cons seed rest ih =>
        unfold seedInputs.go
        split
        · exact ih _
        · exact seats_fail _
    exact hgo _ _ _
  · exact seats_pure _

theorem seats_replayInput (object : MemoryObject) (inputs : List TestInput) :
    (replayInput object inputs : Exec σ Unit).Seats p p := by
  cases inputs with
  | nil => exact seats_fail _
  | cons input rest =>
    refine seats_bind (seats_modifyExecutor (fun _ ↦ rfl) (fun _ _ h ↦ h) (fun _ ↦ rfl) fun _ ↦ rfl) fun _ ↦ ?_
    dsimp only
    split
    · exact seats_fail_bind _
    · rename_i hsize
      exact seats_bind (seats_lift (ObjectState.found_withBytes (by simpa using hsize)).fair) fun contents ↦
        seats_replaceContents object contents

theorem seats_makeObjectSymbolic (object : MemoryObject) (name : String) (size : Expr) :
    (makeObjectSymbolic object name size : Exec σ Unit).Seats p p := by
  have hsymbolic (array : NamedArray) : (do
      replaceContents object (← ObjectState.ofArray object array)
      updateState fun s ↦ return s.addSymbolic object array
      seedInputs array : Exec σ Unit).Seats p p :=
    seats_bind (seats_lift (ObjectState.found_ofArray object array).fair) fun contents ↦
      seats_bind (seats_replaceContents object contents) fun _ ↦ seats_bind (seats_updateState fun s ↦
        Checked.ends_pure (State.beside_of_eq rfl rfl rfl rfl)) fun _ ↦ seats_seedInputs array
  refine seats_bind seats_state fun s ↦ ?_
  dsimp only
  split
  · exact seats_fail_bind _
  · refine seats_bind (seats_lift (Expr.plain_mkZext _ _).fair) fun size ↦
      seats_bind (seats_lift (Expr.plain_mkEq _ _).fair) fun fits ↦
        seats_bind (seats_query fun c ↦ Solver.looks_mustBeTrue c fits) fun certain ↦ ?_
    split
    · refine seats_bind seats_executor fun e ↦ ?_
      split
      · exact seats_replayInput _ _
      · exact seats_bind seats_state fun _ ↦ hsymbolic _
    · exact seats_fail_bind _

theorem seats_makeSymbolic (name : String) (pointer size : Expr) :
    (makeSymbolic name pointer size : Exec σ Unit).Seats p p := by
  refine seats_bind (seats_resolveExact _ _) fun resolved ↦ seats_bind (seats_forIn fun q _ _ ↦
    seats_bind (seats_onSide _ (seats_makeObjectSymbolic (p := True) _ _ _) (fun h ↦ h) fun _ ↦ trivial) fun _ ↦
      seats_pure _) fun _ ↦ seats_pure _

end Exec

end Symex
