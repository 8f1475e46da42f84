import Symex.Proofs.Feasibility.Objects
import Symex.Proofs.Lineage.Branches

namespace Symex

open Checked

variable {σ α β : Type} {I : Trust} {twins needs quiet : Prop}

/-! ## Contents of states -/

namespace State

variable {s t u : State}

theorem Alike.trans (h : s.Alike t) (h' : t.Alike u) : s.Alike u :=
  ⟨h'.id_eq.trans h.id_eq, h'.path_eq.trans h.path_eq, h'.constraints_eq.trans h.constraints_eq⟩

theorem alike_modifyThread (s : State) (f : Thread → Checked Thread) :
    Checked.Ends (fun _ ↦ True) (s.modifyThread f) s.Alike :=
  ends_bind (ends_any _) fun _ _ ↦ ends_bind (ends_any _) fun _ _ ↦ ends_pure ⟨rfl, rfl, rfl⟩

theorem alike_modifyFrame (s : State) (f : Frame → Checked Frame) :
    Checked.Ends (fun _ ↦ True) (s.modifyFrame f) s.Alike :=
  s.alike_modifyThread _

theorem alike_write (s : State) (r : Register) (value : Expr) :
    Checked.Ends (fun _ ↦ True) (s.write r value) s.Alike :=
  s.alike_modifyFrame _

theorem alike_withMemory (s : State) (memory : Checked AddressSpace) :
    Checked.Ends (fun _ ↦ True) (do return { s with memory := ← memory }) s.Alike :=
  ends_bind (ends_any _) fun _ _ ↦ ends_pure ⟨rfl, rfl, rfl⟩

theorem alike_unbindAll (s : State) (objects : List MemoryObject) :
    Checked.Ends (fun _ ↦ True) (s.unbindAll objects) s.Alike :=
  s.alike_withMemory _

theorem alike_bindLocal (s : State) (contents : ObjectState) :
    Checked.Ends (fun _ ↦ True) (s.bindLocal contents) s.Alike := by
  refine ends_bind (ends_any _) fun m _ ↦ ?_
  exact (alike_modifyFrame { s with memory := m } _).mono fun _ h ↦ ⟨h.id_eq, h.path_eq, h.constraints_eq⟩

end State

namespace Exec

/-! ## Registers -/

theorem stays_write (r : Register) (value : Expr) : (write r value : Exec σ Unit).Stays I quiet :=
  stays_updateState fun s ↦ s.alike_write r value

theorem stays_writeResult (r : Option Register) (value : Expr) :
    (writeResult r value : Exec σ Unit).Stays I quiet := by
  cases r with
  | none => exact stays_pure _
  | some r => exact stays_write r value

/-! ## Access -/

variable {address offset : Expr}

theorem stays_perform (access : Access) (object : MemoryObject) (offset : Expr) :
    (perform access object offset : Exec σ Unit).Stays I quiet := by
  refine stays_bind stays_state fun s ↦ ?_
  split
  · exact stays_fail _
  · cases access with
    | load width destination => exact stays_bind (stays_lift _) fun _ ↦ stays_write _ _
    | store value =>
      have hstore : (updateState fun s ↦ do
          return { s with memory := ← s.memory.modify object (·.write offset value) } :
          Exec σ Unit).Stays I quiet := stays_updateState fun s ↦ s.alike_withMemory _
      dsimp only
      split
      · exact stays_fail_bind _
      · exact hstore

theorem goes_findObject (haddress : address.WellFormed) :
    (findObject address : Exec σ _).Goes I twins needs needs := by
  refine goes_bind keeps_state stays_state.goes fun s _ ↦ ?_
  refine goes_bind (keeps_probe fun c hc hsat ↦
    AddressSpace.probes_resolveSymbolic hc hsat haddress s.memory) (stays_ask _).goes fun r _ ↦ ?_
  split
  · exact (stays_pure _).goes
  · exact goes_bind (keeps_toConstant haddress) (goes_toConstant haddress) fun _ _ ↦
      (stays_bind stays_state fun _ ↦ stays_pure _).goes

theorem stays_resolve (address : Expr) : (resolve address : Exec σ _).Stays I quiet :=
  stays_answer fun f ↦ (f.state.memory.resolve f.state.constraints address f.executor.config.maxResolutions
    f.executor.solver.timeout).run f.executor.solver

theorem goes_eachObject {condition : MemoryObject → Checked Expr}
    {work : Branch → MemoryObject → Exec σ (Option α)}
    (hcondition : ∀ o, Safe (condition o) Expr.IsTruth)
    (hkeeps : ∀ b o, (work b o).Keeps I fun _ ↦ True)
    (hwork : ∀ b o, (work b o).Goes I twins False False) (objects : List MemoryObject)
    (remaining : Option Branch) :
    (eachObject condition work objects remaining).Goes I twins False False := by
  induction objects generalizing remaining with
  | nil => exact (stays_pure _).goes
  | cons object rest ih =>
    cases remaining with
    | none => exact (stays_pure _).goes
    | some branch =>
      refine goes_bind (keeps_lift (hcondition object)) (stays_lift _).goes fun c hc ↦ ?_
      refine goes_bind (keeps_forkOn branch hc true) (goes_forkOn branch hc true) fun sides _ ↦ ?_
      have hrest (outside : Option Branch) (here : Option α) : (do
          let later ← eachObject condition work rest outside
          return (here.toList ++ later.1, later.2) : Exec σ _).Goes I twins False False :=
        goes_bind (keeps_eachObject hcondition hkeeps rest outside) (ih outside) fun _ _ ↦
          (stays_pure _).goes
      obtain ⟨inside, outside⟩ := sides
      cases inside with
      | none => exact hrest outside none
      | some inside =>
        exact goes_bind (hkeeps inside object) (hwork inside object) fun here _ ↦ hrest outside here

theorem stays_reportPointer (address : Expr) (error : ExecError) : (do
    let details ← addressInfo address
    terminateOnError ⟨(← executor).location, error⟩ (some details) : Exec σ Unit).Stays I False :=
  stays_bind (stays_addressInfo address) fun _ ↦ stays_bind stays_executor fun _ ↦
    stays_terminateOnError _ _

theorem goes_accessEach {access : Access} (haccess : access.WellFormed) (haddress : address.WellFormed) :
    (accessEach access address : Exec σ Unit).Goes I twins False False := by
  have hkeeps (o : MemoryObject) : (do perform access o (← o.offset address) : Exec σ Unit).Keeps I
      fun _ ↦ True :=
    keeps_bind (keeps_lift (o.safe_offset haddress)) fun _ ho ↦ keeps_perform haccess o ho
  have hwork (o : MemoryObject) : (do perform access o (← o.offset address) : Exec σ Unit).Goes I twins
      True False :=
    (stays_bind (stays_lift _) fun _ ↦ stays_perform _ _ _).ending
  refine goes_bind (keeps_resolve haddress) (stays_resolve _).goes fun resolution _ ↦ ?_
  refine goes_bind (keeps_lift (Bits.safe_byteCountChecked _)) (stays_lift _).goes fun bytes _ ↦ ?_
  have hinside (o : MemoryObject) := o.safe_pointerAccessInside haddress bytes
  refine goes_bind (keeps_eachObject hinside (fun b o ↦ (keeps_onBranch b (hkeeps o)).mono
    fun _ _ ↦ trivial) _ _) (goes_eachObject hinside (fun b o ↦ (keeps_onBranch b (hkeeps o)).mono
    fun _ _ ↦ trivial) (fun b o ↦ goes_onBranch b (hkeeps o) (hwork o)) _ _) fun p _ ↦ ?_
  refine goes_onSide _ ?_ ?_
  · split
    · exact keeps_terminateEarly _
    · exact keeps_reportPointer haddress _
  · split
    · exact (stays_terminateWith _ _).ending
    · exact (stays_reportPointer _ _).ending

theorem goes_access_simplified {access : Access} (config : Config) (bytes : Nat)
    (haccess : access.WellFormed) (haddress : address.WellFormed) :
    (do
      let (found, address) ← findObject address
      match found with
      | none => accessEach access address
      | some object =>
        let offset ← object.offset address
        let large := config.maxSymbolicArraySize ≠ 0 ∧ config.maxSymbolicArraySize ≤ object.size
        let offset ← if large ∧ !offset.isConst then toConstant offset else pure offset
        let inside ← object.accessInside offset bytes
        if ← query (Solver.mustBeTrue · inside) then perform access object offset
        else accessEach access address : Exec σ Unit).Goes I twins False False := by
  refine goes_bind (keeps_findObject haddress) (goes_findObject haddress) fun p hp ↦ ?_
  obtain ⟨found, address⟩ := p
  cases found with
  | none => exact goes_accessEach haccess hp
  | some object =>
    have hend : ∀ {offset : Expr}, offset.WellFormed → (do
        let inside ← object.accessInside offset bytes
        if ← query (Solver.mustBeTrue · inside) then perform access object offset
        else accessEach access address : Exec σ Unit).Goes I twins False False := by
      intro offset ho
      refine goes_bind (keeps_lift (object.safe_accessInside ho bytes)) (stays_lift _).goes
        fun inside hinside ↦ ?_
      refine goes_bind (keeps_mustBeTrue hinside) (stays_query _).goes fun b _ ↦ ?_
      split
      · exact (stays_perform _ _ _).goes
      · exact goes_accessEach haccess hp
    refine goes_bind (keeps_lift (object.safe_offset hp)) (stays_lift _).goes fun offset ho ↦ ?_
    dsimp only
    split
    · exact goes_bind (keeps_toConstant ho) (goes_toConstant ho) fun _ ho ↦ hend ho.1
    · exact goes_bind (keeps_pure ho) (stays_pure _).goes fun _ ho ↦ hend ho

theorem goes_access {access : Access} (haccess : access.WellFormed) (haddress : address.WellFormed) :
    (Exec.access access address : Exec σ Unit).Goes I twins False False := by
  refine goes_bind keeps_executor stays_executor.goes fun e _ ↦ ?_
  refine goes_bind (keeps_lift (Bits.safe_byteCountChecked _)) (stays_lift _).goes fun bytes _ ↦ ?_
  refine goes_bind keeps_state stays_state.goes fun s hs ↦ ?_
  have hsimplify : ∀ {e : Expr}, e.WellFormed → Safe (s.constraints.simplify e) Expr.WellFormed :=
    fun he ↦ by
      obtain ⟨e', he', href⟩ := hs.valid.exists_simplify he
      exact ends_of_eq he' href.wellFormed
  dsimp only
  split
  · refine goes_bind (keeps_lift (hsimplify haddress)) (stays_lift _).goes fun address haddress ↦ ?_
    refine goes_bind (keeps_lift (haccess.safe_mapValue hsimplify)) (stays_lift _).goes
      fun access haccess ↦ ?_
    exact goes_bind (keeps_pure (R := fun p ↦ p.1.WellFormed ∧ p.2.WellFormed) ⟨haddress, haccess⟩)
      (stays_pure _).goes fun p hp ↦ goes_access_simplified e.config bytes hp.2 hp.1
  · exact goes_bind (keeps_pure (R := fun p ↦ p.1.WellFormed ∧ p.2.WellFormed) ⟨haddress, haccess⟩)
      (stays_pure _).goes fun p hp ↦ goes_access_simplified e.config bytes hp.2 hp.1

theorem goes_resolveExact (haddress : address.WellFormed) (operation : String) :
    (resolveExact address operation : Exec σ _).Goes I twins False False := by
  have hsame (o : MemoryObject) : Safe (Expr.mkEq address o.base) Expr.IsTruth :=
    Expr.safe_mkCompare .eq haddress (Expr.pointer_wellFormed _)
  refine goes_bind (keeps_resolve haddress) (stays_resolve _).goes fun resolution _ ↦ ?_
  refine goes_bind (keeps_eachObject hsame (fun _ _ ↦ keeps_pure trivial) _ _)
    (goes_eachObject hsame (fun _ _ ↦ keeps_pure trivial) (fun _ _ ↦ (stays_pure _).goes) _ _)
    fun p _ ↦ ?_
  exact goes_bind (keeps_onSide _ (keeps_reportPointer haddress _))
    (goes_onSide _ (keeps_reportPointer haddress _) (stays_reportPointer _ _).ending) fun _ _ ↦
      (stays_pure _).goes

/-! ## Allocation -/

variable {size pointer : Expr}

theorem stays_reserve (size : Nat) (isLocal : Bool) (site : AllocationSite) (name : String) :
    (reserve size isLocal site name : Exec σ _).Stays I quiet := by
  intro focus
  refine ends_bind_ok rfl ?_
  split
  · exact ends_pure ⟨.refl I _, fun _ ↦ rfl⟩
  · exact stays_set_bind ⟨⟨rfl, rfl, rfl, rfl, rfl, rfl, id⟩, rfl, rfl, rfl, rfl⟩ ⟨rfl, rfl, rfl⟩ (stays_pure _)

theorem stays_allocate (size : Nat) (isLocal : Bool) (destination : Option Register)
    (replaced : Option MemoryObject) :
    (allocate size isLocal destination replaced : Exec σ Unit).Stays I quiet := by
  refine stays_bind stays_executor fun _ ↦ stays_bind (stays_reserve _ _ _ _) fun o ↦ ?_
  cases o with
  | none => exact stays_writeResult _ _
  | some object =>
    have hend (contents : ObjectState) : (do
        if isLocal then updateState (·.bindLocal contents)
        else updateState fun s ↦ return { s with memory := ← s.memory.bind contents }
        writeResult destination object.base : Exec σ Unit).Stays I quiet := by
      split
      · exact stays_bind (stays_updateState fun s ↦ s.alike_bindLocal contents) fun _ ↦
          stays_writeResult _ _
      · exact stays_bind (stays_updateState fun s ↦ s.alike_withMemory _) fun _ ↦ stays_writeResult _ _
    refine stays_bind (stays_lift _) fun contents ↦ ?_
    cases replaced with
    | none => exact stays_bind (stays_pure _) hend
    | some old =>
      have hrest (contents : ObjectState) : (do
          updateState (·.unbindAll [old])
          let contents ← pure contents
          if isLocal then updateState (·.bindLocal contents)
          else updateState fun s ↦ return { s with memory := ← s.memory.bind contents }
          writeResult destination object.base : Exec σ Unit).Stays I quiet :=
        stays_bind (stays_updateState fun s ↦ s.alike_unbindAll _) fun _ ↦
          stays_bind (stays_pure _) hend
      refine stays_bind stays_state fun s ↦ ?_
      dsimp only
      split
      · exact stays_bind (stays_lift _) hrest
      · exact stays_bind (stays_pure _) hrest

theorem stays_shrink (size : Expr) (example_ : Nat) :
    (shrink size example_ : Exec σ Nat).Stays I quiet := by
  induction example_ using Nat.strongRecOn with
  | ind n ih =>
    rw [shrink]
    split
    · rename_i hlt
      refine stays_bind (stays_lift _) fun _ ↦ stays_bind (stays_lift _) fun _ ↦
        stays_bind (stays_query _) fun b ↦ ?_
      split
      · exact ih _ (Nat.div_lt_self (Nat.zero_lt_of_lt hlt) (by decide))
      · exact stays_pure _
    · exact stays_pure _

theorem goes_allocateRest (hsize : size.WellFormed) (isLocal : Bool) (destination : Option Register)
    (replaced : Option MemoryObject) :
    (allocateRest size isLocal destination replaced : Exec σ Unit).Goes I twins True False := by
  refine goes_bind (keeps_value hsize) (stays_query _).goes fun value hvalue ↦ ?_
  refine goes_bind (keeps_lift (Expr.safe_mkCompare .eq hvalue.1 hsize)) (stays_lift _).goes
    fun same hsame ↦ ?_
  refine goes_bind (keeps_mustBeTrue hsame) (stays_query _).goes fun b _ ↦ ?_
  split
  · exact (stays_allocate _ _ _ _).ending
  · refine goes_bind (keeps_lift (Expr.safe_constant _ _)) (stays_lift _).goes fun limit hlimit ↦ ?_
    refine goes_bind (keeps_lift (Expr.safe_mkCompare .ult hlimit.1 hsize)) (stays_lift _).goes
      fun huge hhuge ↦ ?_
    have hnull := keeps_writeResult (σ := σ) (I := I) destination (Expr.pointer_wellFormed 0)
    refine goes_bind (keeps_fork hhuge true) (goes_fork hhuge true) fun sides _ ↦ ?_
    refine goes_bind (keeps_onSide _ hnull) (goes_onSide _ hnull (stays_writeResult _ _).ending) fun _ _ ↦ ?_
    exact goes_onSide _ (keeps_bind keeps_executor fun _ _ ↦ keeps_terminateOnError _ _)
      (stays_bind stays_executor fun _ ↦ stays_terminateOnError _ _).ending

theorem goes_allocateSized (hsize : size.WellFormed) (isLocal : Bool)
    (destination : Option Register) (replaced : Option MemoryObject) :
    (allocateSized size isLocal destination replaced : Exec σ Unit).Goes I twins True False := by
  refine goes_bind (keeps_lift (Expr.safe_mkZext 64 hsize)) (stays_lift _).goes fun size hsize ↦ ?_
  refine goes_bind (keeps_toUnique hsize.1) (stays_toUnique _).goes fun size hsize ↦ ?_
  split
  · exact (stays_allocate _ _ _ _).ending
  · refine goes_bind (keeps_value hsize.1) (stays_query _).goes fun value _ ↦ ?_
    refine goes_bind (keeps_shrink hsize.1 _) (stays_shrink _ _).goes fun example_ _ ↦ ?_
    refine goes_bind (keeps_lift (Expr.safe_constant _ _)) (stays_lift _).goes fun fixed hfixed ↦ ?_
    refine goes_bind (keeps_lift (Expr.safe_mkCompare .eq hfixed.1 hsize.1)) (stays_lift _).goes
      fun same hsame ↦ ?_
    refine goes_bind (keeps_fork hsame true) (goes_fork hsame true) fun sides _ ↦ ?_
    refine goes_bind (keeps_onSide _ (keeps_allocate _ _ _ _))
      (goes_onSide _ (keeps_allocate _ _ _ _) (stays_allocate _ _ _ _).ending) fun _ _ ↦ ?_
    exact goes_onSide _ (keeps_allocateRest hsize.1 _ _ _) (goes_allocateRest hsize.1 _ _ _)

theorem stays_demandHeap (object : MemoryObject) :
    (demandHeap object : Exec σ Unit).Stays I quiet := by
  have hglobal : (if object.isGlobal then fail .freeOfGlobal else pure () : Exec σ Unit).Stays I quiet := by
    split
    · exact stays_fail _
    · exact stays_pure _
  unfold demandHeap
  dsimp only
  split
  · exact stays_fail_bind _
  · exact hglobal

theorem goes_onObjects {work : MemoryObject → Exec σ Unit} (side : Option Branch)
    (hpointer : pointer.WellFormed) (operation : String)
    (hkeeps : ∀ o, (work o).Keeps I fun _ ↦ True) (hwork : ∀ o, (work o).Goes I twins True False) :
    (onObjects side pointer operation work).Goes I twins False False := by
  cases side with
  | none => exact (stays_pure _).goes
  | some side =>
    have hresolve : (resolveExact pointer operation : Exec σ _).Keeps I _ :=
      keeps_resolveExact hpointer operation
    refine goes_bind (keeps_onBranch side hresolve) (goes_onBranch side hresolve
      ((goes_resolveExact hpointer operation).mono nofun id)) fun o _ ↦ ?_
    refine goes_bind_pure (goes_forIn ?_ ?_)
    · rintro ⟨branch, object⟩ -
      exact keeps_bind (keeps_onSide _ (hkeeps object)) fun _ _ ↦ keeps_pure rfl
    · rintro ⟨branch, object⟩ -
      exact goes_bind_pure (goes_onSide _ (hkeeps object) (hwork object))

theorem goes_free (hpointer : pointer.WellFormed) (destination : Option Register) :
    (free pointer destination : Exec σ Unit).Goes I twins True False := by
  have hnull : (writeResult destination (.pointer 0) : Exec σ Unit).Keeps I fun _ ↦ True :=
    keeps_writeResult _ (Expr.pointer_wellFormed 0)
  refine goes_bind (keeps_fork hpointer.isZero true) (goes_fork hpointer.isZero true) fun sides _ ↦ ?_
  refine goes_bind (keeps_onSide _ hnull) (goes_onSide _ hnull (stays_writeResult _ _).ending) fun _ _ ↦ ?_
  refine goes_onObjects _ hpointer _ (fun object ↦ ?_) fun object ↦ ?_
  · exact keeps_bind (keeps_demandHeap object) fun _ _ ↦ keeps_bind (keeps_unbindAll _) fun _ _ ↦ hnull
  · exact (stays_bind (stays_demandHeap object) fun _ ↦ stays_bind
      (stays_updateState fun s ↦ s.alike_unbindAll _) fun _ ↦ stays_writeResult _ _).ending

theorem goes_reallocate (hpointer : pointer.WellFormed) (hsize : size.WellFormed)
    (destination : Option Register) :
    (reallocate pointer size destination : Exec σ Unit).Goes I twins True False := by
  refine goes_bind (keeps_lift (Expr.safe_mkZext 64 hsize)) (stays_lift _).goes fun size hsize ↦ ?_
  refine goes_bind (keeps_fork hsize.1.isZero true) (goes_fork hsize.1.isZero true) fun sides _ ↦ ?_
  have hmove (object : MemoryObject) : (do
      demandHeap object
      allocateSized size false destination (some object) : Exec σ Unit).Keeps I fun _ ↦ True :=
    keeps_bind (keeps_demandHeap object) fun _ _ ↦ keeps_allocateSized hsize.1 _ _ _
  refine goes_bind (keeps_onSide _ (keeps_free hpointer destination))
    (goes_onSide _ (keeps_free hpointer destination) (goes_free hpointer destination)) fun _ _ ↦ ?_
  refine goes_onSide _ (keeps_bind (keeps_fork hpointer.isZero true) fun sides _ ↦
    keeps_bind (keeps_onSide _ (keeps_allocateSized hsize.1 _ _ _)) fun _ _ ↦
      keeps_onObjects _ hpointer _ hmove) ?_
  refine goes_bind (keeps_fork hpointer.isZero true) (goes_fork hpointer.isZero true) fun sides _ ↦ ?_
  refine goes_bind (keeps_onSide _ (keeps_allocateSized hsize.1 _ _ _))
    (goes_onSide _ (keeps_allocateSized hsize.1 _ _ _) (goes_allocateSized hsize.1 _ _ _)) fun _ _ ↦ ?_
  refine goes_onObjects _ hpointer _ hmove fun object ↦ ?_
  exact goes_bind (keeps_demandHeap object) (stays_demandHeap object).goes fun _ _ ↦
    goes_allocateSized hsize.1 _ _ _

/-! ## Inputs -/

theorem stays_replaceContents (object : MemoryObject) (contents : ObjectState) :
    (replaceContents object contents : Exec σ Unit).Stays I quiet :=
  stays_updateState fun s ↦ Checked.ends_bind (ends_any _) fun _ _ ↦ s.alike_withMemory _

theorem free_seedInput {config : Config} {array : NamedArray} {seed seed' : Seed}
    (h : seedInput config array seed = .ok seed') : seed'.assignment.free = seed.assignment.free := by
  unfold seedInput at h
  split at h
  · split at h
    · cases h
      rfl
    · split at h <;> cases h
      rfl
  · rename_i input next hnext
    have hfree : next.assignment.free = seed.assignment.free := by
      unfold Seed.nextInput at hnext
      obtain ⟨_, -, hnext⟩ := Option.map_eq_some_iff.1 hnext
      cases hnext
      rfl
    dsimp only at h
    split at h
    · cases h
    · split at h <;> cases h <;> exact hfree

theorem stays_seedInputs (array : NamedArray) : (seedInputs array : Exec σ Unit).Stays I quiet := by
  have hgo (config : Config) (focus : Focus σ) (old : List Seed)
      (hold : focus.executor.seeds[focus.state.id]? = some old) : ∀ seeds done : List Seed,
        ((∀ seed ∈ old, seed.assignment.free) → ∀ seed ∈ done ++ seeds, seed.assignment.free) →
          (seedInputs.go array config focus.state.id done seeds : Exec σ Unit).Ends (fun _ ↦ True) focus
            fun _ f ↦ focus.Solo I f ∧ (quiet → f.executor.removed = focus.executor.removed) := by
    intro seeds
    induction seeds with
    | nil =>
      intro done hfree
      unfold seedInputs.go
      exact ends_modifyExecutor ⟨.setSeeds hold fun hf seed hseed ↦ hfree hf seed (by simpa using hseed), fun _ ↦ rfl⟩
    | cons seed rest ih =>
      intro done hfree
      unfold seedInputs.go
      split
      · rename_i seed' hseed'
        refine ih _ fun hf s hs ↦ ?_
        have hs : s = seed' ∨ s ∈ done ++ rest := by simpa [or_assoc] using hs
        obtain rfl | hs := hs
        · exact (free_seedInput hseed').trans (hfree hf seed (by simp))
        · exact hfree hf s (by simp at hs ⊢; tauto)
      · exact ends_fail ⟨.refl I _, fun _ ↦ rfl⟩
  intro focus
  refine ends_bind_ok rfl ?_
  split
  · rename_i seeds hseeds
    exact ends_bind_ok rfl (ends_bind_ok rfl (hgo _ _ seeds hseeds seeds [] id))
  · exact ends_pure ⟨.refl I _, fun _ ↦ rfl⟩

theorem stays_replayInput (object : MemoryObject) (inputs : List TestInput) :
    (replayInput object inputs : Exec σ Unit).Stays I quiet := by
  cases inputs with
  | nil => exact stays_fail _
  | cons input rest =>
    have hreplace : (do
        replaceContents object (← ObjectState.withBytes object input.bytes) : Exec σ Unit).Stays I quiet :=
      stays_bind (stays_lift _) fun _ ↦ stays_replaceContents object _
    refine stays_bind (stays_modifyExecutor fun _ ↦
      ⟨⟨rfl, rfl, rfl, rfl, rfl, rfl, id⟩, rfl, rfl, rfl, rfl⟩) fun _ ↦ ?_
    split
    · exact stays_fail_bind _
    · exact hreplace

theorem stays_makeObjectSymbolic (object : MemoryObject) (name : String) (size : Expr) :
    (makeObjectSymbolic object name size : Exec σ Unit).Stays I quiet := by
  unfold makeObjectSymbolic
  refine stays_bind stays_state fun s ↦ ?_
  dsimp only
  split
  · exact stays_fail_bind _
  · refine stays_bind (stays_lift _) fun size ↦ stays_bind (stays_lift _) fun fits ↦
      stays_bind (stays_query _) fun b ↦ ?_
    split
    · refine stays_bind stays_executor fun e ↦ ?_
      split
      · exact stays_replayInput object _
      · refine stays_bind stays_state fun s ↦ stays_bind (stays_lift _) fun contents ↦ ?_
        refine stays_bind (stays_replaceContents object _) fun _ ↦ ?_
        exact stays_bind (stays_updateState fun s ↦ Checked.ends_pure ⟨rfl, rfl, rfl⟩) fun _ ↦
          stays_seedInputs _
    · exact stays_fail_bind _

theorem goes_makeSymbolic (name : String) (hpointer : pointer.WellFormed) (hsize : size.WellFormed) :
    (makeSymbolic name pointer size : Exec σ Unit).Goes I twins False False := by
  refine goes_bind (keeps_resolveExact hpointer _) (goes_resolveExact hpointer _) fun resolved _ ↦ ?_
  refine goes_bind_pure (goes_forIn ?_ ?_)
  · rintro ⟨branch, object⟩ -
    exact keeps_bind (keeps_onSide _ (keeps_makeObjectSymbolic object name hsize)) fun _ _ ↦
      keeps_pure rfl
  · rintro ⟨branch, object⟩ -
    exact goes_bind_pure (goes_onSide _ (keeps_makeObjectSymbolic object name hsize)
      (stays_makeObjectSymbolic object name size).ending)

end Exec

end Symex
