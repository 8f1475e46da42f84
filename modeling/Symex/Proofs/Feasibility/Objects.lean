import Symex.Proofs.Feasibility.Branching
import Symex.Proofs.Integrity.Lookups
import Symex.Proofs.Pools

namespace Symex

open Checked

variable {σ α β : Type}

/-! ## Searches -/

section

variable {I : Inputs}

/-- With an exact backend, the search runs into no contradiction, and `P` holds of its result. -/
def Searches (I : Inputs) (search : StateT (Solver σ) Checked α) (P : α → Prop) : Prop :=
  ∀ s : Solver σ, s.backend.Exact I True → Safe (search.run s) fun p ↦ s.Same p.2 ∧ P p.1

section

variable {P P' : α → Prop} {Q : β → Prop} {search : StateT (Solver σ) Checked α}

theorem searches_pure {a : α} (h : P a) : Searches I (pure a : StateT (Solver σ) Checked α) P :=
  fun s _ ↦ ends_pure ⟨.refl s, h⟩

theorem searches_bind {f : α → StateT (Solver σ) Checked β} (h : Searches I search P)
    (hf : ∀ a, P a → Searches I (f a) Q) : Searches I (search >>= f) Q := fun s hs ↦
  ends_bind (h s hs) fun p hp ↦
    (hf p.1 hp.2 p.2 (hp.1.backend_eq ▸ hs)).mono fun _ hq ↦ ⟨hp.1.trans hq.1, hq.2⟩

theorem searches_lift {x : Checked α} (h : Safe x P) :
    Searches I (liftM x : StateT (Solver σ) Checked α) P := fun s _ ↦
  ends_bind h fun _ ha ↦ ends_pure ⟨.refl s, ha⟩

theorem Searches.mono (h : Searches I search P) (hPP' : ∀ a, P a → P' a) : Searches I search P' :=
  fun s hs ↦ (h s hs).mono fun _ hp ↦ ⟨hp.1, hPP' _ hp.2⟩

theorem Finds.searches (h : Finds I True search P) : Searches I search P := fun s hs ↦ by
  obtain ⟨r, s', hrun, hsame, hr⟩ := h s hs
  exact ends_of_eq hrun ⟨hsame, hr⟩

theorem searches_now : Searches I (Solver.now : StateT (Solver σ) Checked Nat) fun _ ↦ True :=
  fun _ _ ↦ ends_pure ⟨⟨rfl, rfl, rfl, Nat.le_succ _⟩, trivial⟩

end

namespace Ask

variable {P : α → Prop} {Q : β → Prop} {x : Ask σ α}

/-- With an exact backend, the computation runs into no contradiction, and `P` holds of its answer. -/
def Probes (I : Inputs) (x : Ask σ α) (P : α → Prop) : Prop :=
  Searches I x.run fun r ↦ ∀ a, r = .ok a → P a

theorem probes_pure {a : α} (h : P a) : (pure a : Ask σ α).Probes I P :=
  searches_pure (by rintro _ ⟨⟩; exact h)

theorem probes_bind {f : α → Ask σ β} (h : x.Probes I P) (hf : ∀ a, P a → (f a).Probes I Q) :
    (x >>= f).Probes I Q :=
  searches_bind h fun r hr ↦ by
    cases r with
    | ok a => exact hf a (hr a rfl)
    | error e => exact searches_pure nofun

theorem probes_checked {c : Checked α} (h : Safe c P) : (checked c : Ask σ α).Probes I P :=
  fun s _ ↦ ends_bind h fun _ ha ↦ ends_pure ⟨.refl s, by rintro _ ⟨⟩; exact ha⟩

theorem Answers.probes (h : x.Answers I True P) : x.Probes I P :=
  (Finds.searches h).mono fun r hr ↦ by rintro a rfl; exact hr

end Ask

/-! ## Objects at an address -/

namespace MemoryObject

variable {pointer offset : Expr}

theorem safe_offset (o : MemoryObject) (hp : pointer.WellFormed) :
    Safe (o.offset pointer) Expr.WellFormed :=
  (Expr.safe_mkBinary .sub hp (Expr.pointer_wellFormed _)).mono fun _ h ↦ h.1

theorem safe_pointerInside (o : MemoryObject) (hp : pointer.WellFormed) :
    Safe (o.pointerInside pointer) Expr.IsTruth := by
  refine ends_bind (o.safe_offset hp) fun offset ho ↦ ?_
  unfold offsetInside
  split
  · exact Expr.safe_mkCompare .eq (Expr.pointer_wellFormed _) ho
  · exact Expr.safe_mkCompare .ult ho (Expr.pointer_wellFormed _)

theorem safe_accessInside (o : MemoryObject) (ho : offset.WellFormed) (bytes : Nat) :
    Safe (o.accessInside offset bytes) Expr.IsTruth := by
  unfold accessInside
  split
  · exact ends_pure ⟨Expr.bool_wellFormed _, rfl⟩
  · exact ends_bind (Bits.safe_addChecked _ _) fun _ _ ↦
      Expr.safe_mkCompare .ult ho (Expr.pointer_wellFormed _)

theorem safe_pointerAccessInside (o : MemoryObject) (hp : pointer.WellFormed) (bytes : Nat) :
    Safe (o.pointerAccessInside pointer bytes) Expr.IsTruth :=
  ends_bind (o.safe_offset hp) fun _ ho ↦ o.safe_accessInside ho bytes

end MemoryObject

namespace AddressSpace

variable {c : ConstraintSet} {address : Expr} {stop : Expr → Expr → Checked Expr}

section

variable (hc : c.Valid) (hsat : I.Satisfiable c) (haddress : address.WellFormed)
include hc hsat haddress

section

variable (hstop : ∀ o : MemoryObject, Safe (stop address o.base) Expr.IsTruth)
include hstop

theorem probes_firstPossible (candidates : List (ObjectKey × ObjectState)) :
    (firstPossible c address stop candidates : Ask σ _).Probes I fun _ ↦ True := by
  induction candidates with
  | nil => exact Ask.probes_pure trivial
  | cons p rest ih =>
    obtain ⟨_, contents⟩ := p
    refine Ask.probes_bind (Ask.probes_checked (contents.object.safe_pointerInside haddress))
      fun inside hinside ↦ ?_
    refine Ask.probes_bind (Solver.answers_mayBeTrue hc hsat hinside.1).probes fun _ _ ↦ ?_
    split
    · exact Ask.probes_pure trivial
    · refine Ask.probes_bind (Ask.probes_checked (hstop contents.object)) fun past hpast ↦ ?_
      refine Ask.probes_bind (Solver.answers_mustBeTrue hc hsat hpast.1).probes fun _ _ ↦ ?_
      split
      · exact Ask.probes_pure trivial
      · exact ih

theorem searches_consider (limit : Nat) (contents : ObjectState) (found : List ObjectState) :
    Searches I (consider c address stop limit contents found : StateT (Solver σ) Checked _)
      fun _ ↦ True := by
  have hturn (found : List ObjectState) : Searches I
      (consider.turn c address stop contents found : StateT (Solver σ) Checked _) fun _ ↦ True := by
    refine searches_bind (searches_lift (hstop contents.object)) fun past hpast ↦ ?_
    refine searches_bind (Solver.answers_mustBeTrue hc hsat hpast.1).searches fun r _ ↦ ?_
    split <;> exact searches_pure trivial
  refine searches_bind (searches_lift (contents.object.safe_pointerInside haddress))
    fun inside hinside ↦ ?_
  refine searches_bind (Solver.answers_mayBeTrue hc hsat hinside.1).searches fun r _ ↦ ?_
  split
  · exact searches_pure trivial
  · exact hturn found
  · dsimp only
    split
    · refine searches_bind (Solver.answers_mustBeTrue hc hsat hinside.1).searches fun r _ ↦ ?_
      split
      · exact searches_pure trivial
      · exact searches_pure trivial
      · split
        · exact searches_pure trivial
        · exact hturn _
    · split
      · exact searches_pure trivial
      · exact hturn _

theorem searches_sweep (limit : Nat) (timeout : Option Nat) (started : Nat)
    (candidates : List (ObjectKey × ObjectState)) (found : List ObjectState) : Searches I
      (sweep c address stop limit timeout started candidates found : StateT (Solver σ) Checked _)
      fun _ ↦ True := by
  induction candidates generalizing found with
  | nil => exact searches_pure trivial
  | cons p rest ih =>
    unfold sweep
    refine searches_bind searches_now fun _ _ ↦ ?_
    split
    · exact searches_pure trivial
    · refine searches_bind (searches_consider hc hsat haddress hstop limit _ found) fun r _ ↦ ?_
      split
      · exact ih _
      · exact searches_pure trivial

end

omit hc hsat in
theorem safe_mkUge_base (o : MemoryObject) : Safe (Expr.mkUge address o.base) Expr.IsTruth :=
  Expr.safe_mkCompare .ule (Expr.pointer_wellFormed _) haddress

omit hc hsat in
theorem safe_mkUlt_base (o : MemoryObject) : Safe (Expr.mkUlt address o.base) Expr.IsTruth :=
  Expr.safe_mkCompare .ult haddress (Expr.pointer_wellFormed _)

theorem probes_resolveSymbolic (m : AddressSpace) :
    (m.resolveSymbolic c address : Ask σ _).Probes I fun _ ↦ True := by
  unfold resolveSymbolic
  split
  · exact Ask.probes_pure trivial
  · refine Ask.probes_bind (Solver.answers_value hc hsat haddress).probes fun v _ ↦ ?_
    dsimp only
    split
    · exact Ask.probes_pure trivial
    · refine Ask.probes_bind (probes_firstPossible hc hsat haddress (safe_mkUge_base haddress) _)
        fun r _ ↦ ?_
      split
      · exact Ask.probes_pure trivial
      · exact probes_firstPossible hc hsat haddress (safe_mkUlt_base haddress) _

theorem searches_resolve (m : AddressSpace) (limit : Nat) (timeout : Option Nat) :
    Searches I (m.resolve c address limit timeout : StateT (Solver σ) Checked _) fun _ ↦ True := by
  unfold resolve
  split
  · exact searches_pure trivial
  · refine searches_bind searches_now fun started _ ↦
      searches_bind (Solver.answers_value hc hsat haddress).searches fun r _ ↦ ?_
    split
    · exact searches_pure trivial
    · refine searches_bind (searches_sweep hc hsat haddress (safe_mkUge_base haddress) _ _ _ _ _)
        fun p _ ↦ ?_
      dsimp only
      split
      · exact searches_bind (searches_sweep hc hsat haddress (safe_mkUlt_base haddress) _ _ _ _ _)
          fun _ _ ↦ searches_pure trivial
      · exact searches_bind (searches_pure trivial) fun _ (_ : True) ↦ searches_pure trivial

end

end AddressSpace

end

def Access.WellFormed : Access → Prop
  | load _ _ => True
  | store value => value.WellFormed

theorem Access.WellFormed.safe_mapValue {access : Access} {f : Expr → Checked Expr}
    (h : access.WellFormed) (hf : ∀ {e : Expr}, e.WellFormed → Safe (f e) Expr.WellFormed) :
    Safe (access.mapValue f) WellFormed := by
  cases access with
  | load width destination => exact ends_pure trivial
  | store value => exact ends_bind (hf h) fun _ h ↦ ends_pure h

namespace Exec

variable {I : Trust}

theorem ends_search {search : StateT (Solver σ) Checked α} {focus : Focus σ}
    (h : I.right → Searches I.toInputs search fun _ ↦ True) (hf : focus.Sound I) :
    Checked.Ends I.Bears (search.run focus.executor.solver) fun p ↦ (focus.withSolver p.2).Sound I := by
  by_cases hright : I.right
  · exact ((h hright _ (hf.executor.exact hright)).mono fun p hp ↦ hf.withSolver fun _ ↦ hp.1).bears
  · exact (ends_true_iff.2 fun p _ ↦ hf.withSolver fun hr ↦ absurd hr hright).weaken
      fun _ _ hr ↦ absurd hr hright

theorem keeps_probe {question : ConstraintSet → Ask σ α}
    (hq : ∀ c : ConstraintSet, c.Valid → I.Satisfiable c → (question c).Probes I.toInputs fun _ ↦ True) :
    (ask question).Keeps I fun _ ↦ True := fun _ hf ↦
  ends_ask_any ((ends_search (fun hright ↦ (hq _ hf.state.valid (hf.state.satisfiable hright)).mono
    fun _ _ ↦ trivial) hf).mono fun _ hp ↦ ⟨hp, fun _ _ ↦ trivial⟩)

/-! ## Access -/

variable {address offset : Expr}

theorem keeps_perform {access : Access} (haccess : access.WellFormed)
    (object : MemoryObject) (ho : offset.WellFormed) :
    (perform access object offset : Exec σ Unit).Keeps I fun _ ↦ True := by
  refine keeps_bind keeps_state fun s hs ↦ ?_
  split
  · exact keeps_fail _
  · rename_i contents hcontents
    cases access with
    | load width destination =>
      exact keeps_bind (keeps_lift ((hs.memory.of_find? hcontents).safe_read ho width)) fun value hvalue ↦
        keeps_write destination hvalue
    | store value =>
      have hstore : (updateState fun s ↦ do
          return { s with memory := ← s.memory.modify object (·.write offset value) } :
          Exec σ Unit).Keeps I fun _ ↦ True :=
        keeps_updateState fun s hs ↦ Checked.ends_bind (hs.memory.safe_modify fun x hx ↦
          hx.safe_write ho haccess) fun m hm ↦ Checked.ends_pure (hs.withMemory hm)
      dsimp only
      split
      · exact keeps_fail_bind _
      · exact hstore

theorem keeps_findObject (haddress : address.WellFormed) :
    (findObject address : Exec σ _).Keeps I fun p ↦ p.2.WellFormed := by
  refine keeps_bind keeps_state fun s _ ↦ ?_
  refine keeps_bind (keeps_probe fun c hc hsat ↦
    AddressSpace.probes_resolveSymbolic hc hsat haddress s.memory) fun r _ ↦ ?_
  split
  · exact keeps_pure haddress
  · exact keeps_bind (keeps_toConstant haddress) fun v hv ↦ keeps_bind keeps_state fun _ _ ↦
      keeps_pure hv.1

theorem keeps_resolve (haddress : address.WellFormed) :
    (resolve address : Exec σ _).Keeps I fun _ ↦ True := by
  intro focus hf
  have hsearch := ends_search (fun hright ↦ AddressSpace.searches_resolve hf.state.valid
    (hf.state.satisfiable hright) haddress focus.state.memory focus.executor.config.maxResolutions
      focus.executor.solver.timeout) hf
  refine ends_bind_ok rfl (ends_bind (ends_lift (P := fun r f ↦ f = focus ∧
    ∀ p, r = .ok p → (focus.withSolver p.2).Sound I) (hsearch.mono fun p hp ↦
      ⟨rfl, by rintro _ ⟨⟩; exact hp⟩)) ?_ fun _ f h ↦ ⟨h.1 ▸ hf, nofun⟩)
  rintro ⟨resolution, solver⟩ _ ⟨rfl, hsound⟩
  exact ends_bind_ok rfl (ends_pure ⟨hsound _ rfl, fun _ _ ↦ trivial⟩)

theorem keeps_eachObject {condition : MemoryObject → Checked Expr}
    {work : Branch → MemoryObject → Exec σ (Option α)}
    (hcondition : ∀ o, Safe (condition o) Expr.IsTruth)
    (hwork : ∀ b o, (work b o).Keeps I fun _ ↦ True) (objects : List MemoryObject)
    (remaining : Option Branch) :
    (eachObject condition work objects remaining).Keeps I fun _ ↦ True := by
  induction objects generalizing remaining with
  | nil => exact keeps_pure trivial
  | cons object rest ih =>
    cases remaining with
    | none => exact keeps_pure trivial
    | some branch =>
      refine keeps_bind (keeps_lift (hcondition object)) fun c hc ↦ ?_
      refine keeps_bind (keeps_forkOn branch hc true) fun sides _ ↦ ?_
      obtain ⟨inside, outside⟩ := sides
      cases inside with
      | none =>
        exact keeps_bind (R := fun _ ↦ True) (keeps_pure trivial) fun _ _ ↦
          keeps_bind (ih outside) fun _ _ ↦ keeps_pure trivial
      | some inside =>
        exact keeps_bind (hwork inside object) fun _ _ ↦
          keeps_bind (ih outside) fun _ _ ↦ keeps_pure trivial

theorem keeps_reportPointer (haddress : address.WellFormed) (error : ExecError) : (do
    let details ← addressInfo address
    terminateOnError ⟨(← executor).location, error⟩ (some details) : Exec σ Unit).Keeps I
      fun _ ↦ True :=
  keeps_bind (keeps_addressInfo haddress) fun _ _ ↦ keeps_bind keeps_executor fun _ _ ↦
    keeps_terminateOnError _ _

theorem keeps_accessEach {access : Access} (haccess : access.WellFormed)
    (haddress : address.WellFormed) :
    (accessEach access address : Exec σ Unit).Keeps I fun _ ↦ True := by
  refine keeps_bind (keeps_resolve haddress) fun resolution _ ↦ ?_
  refine keeps_bind (keeps_lift (Bits.safe_byteCountChecked _)) fun bytes _ ↦ ?_
  refine keeps_bind (keeps_eachObject (fun o ↦ o.safe_pointerAccessInside haddress bytes)
    (fun b o ↦ (keeps_onBranch b (keeps_bind (keeps_lift (o.safe_offset haddress)) fun _ ho ↦
      keeps_perform haccess o ho)).mono fun _ _ ↦ trivial) _ _) fun p _ ↦ keeps_onSide _ ?_
  split
  · exact keeps_terminateEarly _
  · exact keeps_reportPointer haddress _

theorem keeps_access_simplified {access : Access} (config : Config) (bytes : Nat)
    (haccess : access.WellFormed) (haddress : address.WellFormed) :
    (do
      let (found, address) ← findObject address
      match found with
      | none => accessEach access address
      | some object =>
        let offset ← object.offset address
        let large := config.maxSymbolicArraySize ≠ 0 ∧ config.maxSymbolicArraySize ≤ object.size
        let offset ← if large ∧ !offset.isConst then toConstant offset else pure offset
        let inside ← object.accessInside offset bytes
        if ← query (Solver.mustBeTrue · inside) then perform access object offset
        else accessEach access address : Exec σ Unit).Keeps I fun _ ↦ True := by
  refine keeps_bind (keeps_findObject haddress) fun p hp ↦ ?_
  obtain ⟨found, address⟩ := p
  cases found with
  | none => exact keeps_accessEach haccess hp
  | some object =>
    have hend : ∀ {offset : Expr}, offset.WellFormed → (do
        let inside ← object.accessInside offset bytes
        if ← query (Solver.mustBeTrue · inside) then perform access object offset
        else accessEach access address : Exec σ Unit).Keeps I fun _ ↦ True := by
      intro offset ho
      refine keeps_bind (keeps_lift (object.safe_accessInside ho bytes)) fun inside hinside ↦ ?_
      refine keeps_bind (keeps_mustBeTrue hinside) fun b _ ↦ ?_
      split
      · exact keeps_perform haccess object ho
      · exact keeps_accessEach haccess hp
    refine keeps_bind (keeps_lift (object.safe_offset hp)) fun offset ho ↦ ?_
    dsimp only
    split
    · exact keeps_bind (keeps_toConstant ho) fun _ ho ↦ hend ho.1
    · exact keeps_bind (keeps_pure ho) fun _ ho ↦ hend ho

theorem keeps_access {access : Access} (haccess : access.WellFormed)
    (haddress : address.WellFormed) :
    (Exec.access access address : Exec σ Unit).Keeps I fun _ ↦ True := by
  refine keeps_bind keeps_executor fun e _ ↦ ?_
  refine keeps_bind (keeps_lift (Bits.safe_byteCountChecked _)) fun bytes _ ↦ ?_
  refine keeps_bind keeps_state fun s hs ↦ ?_
  have hsimplify : ∀ {e : Expr}, e.WellFormed → Safe (s.constraints.simplify e) Expr.WellFormed :=
    fun he ↦ by
      obtain ⟨e', he', href⟩ := hs.valid.exists_simplify he
      exact ends_of_eq he' href.wellFormed
  dsimp only
  split
  · refine keeps_bind (keeps_lift (hsimplify haddress)) fun address haddress ↦ ?_
    refine keeps_bind (keeps_lift (haccess.safe_mapValue hsimplify)) fun access haccess ↦ ?_
    exact keeps_bind (keeps_pure (R := fun p ↦ p.1.WellFormed ∧ p.2.WellFormed) ⟨haddress, haccess⟩)
      fun p hp ↦ keeps_access_simplified e.config bytes hp.2 hp.1
  · exact keeps_bind (keeps_pure (R := fun p ↦ p.1.WellFormed ∧ p.2.WellFormed) ⟨haddress, haccess⟩)
      fun p hp ↦ keeps_access_simplified e.config bytes hp.2 hp.1

theorem keeps_resolveExact (haddress : address.WellFormed) (operation : String) :
    (resolveExact address operation : Exec σ _).Keeps I fun _ ↦ True := by
  refine keeps_bind (keeps_resolve haddress) fun resolution _ ↦ ?_
  refine keeps_bind (keeps_eachObject (fun o ↦ Expr.safe_mkCompare .eq haddress
    (Expr.pointer_wellFormed _)) (fun _ _ ↦ keeps_pure trivial) _ _) fun p _ ↦ ?_
  exact keeps_bind (keeps_onSide _ (keeps_reportPointer haddress _)) fun _ _ ↦ keeps_pure trivial

/-! ## Allocation -/

variable {size pointer : Expr}

theorem keeps_reserve (size : Nat) (isLocal : Bool) (site : AllocationSite) (name : String) :
    (reserve size isLocal site name : Exec σ _).Keeps I fun o ↦ ∀ object ∈ o, object.size = size := by
  refine keeps_bind keeps_get fun focus hf ↦ ?_
  split
  · exact keeps_pure nofun
  · rename_i object allocator pool h
    refine keeps_bind (keeps_set ⟨⟨hf.executor.exact, hf.executor.constants, hf.executor.states⟩, ?_⟩)
      fun _ _ ↦ keeps_pure ?_
    · exact ⟨hf.state.valid, hf.state.satisfiable, hf.state.threads, hf.state.memory⟩
    · rintro _ ⟨⟩
      exact Allocator.size_of_allocate h

theorem safe_copyBytes {old contents : ObjectState} (hold : old.WellFormed)
    (hcontents : contents.WellFormed) : Safe (copyBytes old contents) ObjectState.WellFormed :=
  Checked.ends_foldlM hcontents fun i _ _ hc ↦
    Checked.ends_bind (hold.safe_readByte i) fun _ he ↦ hc.safe_write8 i he

theorem keeps_bindContents {contents : ObjectState} (h : contents.WellFormed) :
    (updateState fun s ↦ do return { s with memory := ← s.memory.bind contents } :
      Exec σ Unit).Keeps I fun _ ↦ True :=
  keeps_updateState fun _ hs ↦ Checked.ends_bind (hs.memory.safe_bind h) fun _ hm ↦
    Checked.ends_pure (hs.withMemory hm)

theorem keeps_unbindAll (objects : List MemoryObject) :
    (updateState (·.unbindAll objects) : Exec σ Unit).Keeps I fun _ ↦ True :=
  keeps_updateState fun _ hs ↦ hs.safe_unbindAll objects

theorem keepsAt_allocate {focus : Focus σ} {Q : Focus σ → Prop} (hf : focus.Sound I) (size : Nat) (isLocal : Bool)
    (destination : Option Register) (replaced : Option MemoryObject)
    (hnull : ∀ f : Focus σ, f.Sound I →
      (writeResult destination (.pointer 0) : Exec σ Unit).KeepsAt I f fun _ f' ↦ Q f')
    (hbind : ∀ (f : Focus σ) (contents : ObjectState), f.Sound I → contents.WellFormed →
      contents.object.size = size → (do
        if isLocal then updateState (·.bindLocal contents)
        else updateState fun s ↦ return { s with memory := ← s.memory.bind contents }
        writeResult destination contents.object.base : Exec σ Unit).KeepsAt I f fun _ f' ↦ Q f') :
    (allocate size isLocal destination replaced : Exec σ Unit).KeepsAt I focus fun _ f ↦ Q f := by
  refine keepsAt_bind (keeps_executor.here hf) fun _ f hf _ ↦
    keepsAt_bind ((keeps_reserve size _ _ _).here hf) fun o f hf ho ↦ ?_
  cases o with
  | none => exact hnull f hf
  | some object =>
    have hsize : object.size = size := ho object rfl
    have hzeroed : Safe (ObjectState.zeroed object) fun x ↦ x.WellFormed ∧ x.object = object :=
      Checked.Ends.and (ObjectState.safe_zeroed object) (ObjectState.found_zeroed object)
    refine keepsAt_bind ((keeps_lift hzeroed).here hf) ?_
    rintro contents f hf ⟨hc, rfl⟩
    cases replaced with
    | none => exact hbind f contents hf hc hsize
    | some old =>
      have hrest (x : ObjectState) (f : Focus σ) (hf : f.Sound I)
          (hx : x.WellFormed ∧ x.object = contents.object) : (do
            updateState (·.unbindAll [old])
            if isLocal then updateState (·.bindLocal x)
            else updateState fun s ↦ return { s with memory := ← s.memory.bind x }
            writeResult destination contents.object.base : Exec σ Unit).KeepsAt I f fun _ f' ↦ Q f' :=
        keepsAt_bind ((keeps_unbindAll _).here hf) fun _ f hf _ ↦ hx.2 ▸ hbind f x hf hx.1 (hx.2 ▸ hsize)
      refine keepsAt_bind (keeps_state.here hf) fun s f hf hs ↦ ?_
      dsimp only
      split
      · rename_i bytes hbytes
        have hcopied : Safe (copyBytes bytes contents) fun x ↦ x.WellFormed ∧ x.object = contents.object :=
          Checked.Ends.and (safe_copyBytes (hs.memory.of_find? hbytes) hc) (found_copyBytes bytes contents)
        exact keepsAt_bind ((keeps_lift hcopied).here hf) fun x f hf hx ↦ hrest x f hf hx
      · exact hrest contents f hf ⟨hc, rfl⟩

theorem keeps_allocate (size : Nat) (isLocal : Bool) (destination : Option Register)
    (replaced : Option MemoryObject) :
    (allocate size isLocal destination replaced : Exec σ Unit).Keeps I fun _ ↦ True := fun _ hf ↦
  keepsAt_allocate hf size isLocal destination replaced
    (fun _ hf ↦ (keeps_writeResult _ (Expr.pointer_wellFormed 0)).here hf) fun f contents hf hc _ ↦ by
      have hresult : (writeResult destination contents.object.base : Exec σ Unit).Keeps I fun _ ↦ True :=
        keeps_writeResult _ (Expr.pointer_wellFormed _)
      split
      · exact (keeps_bind (keeps_updateState fun _ hs ↦ hs.safe_bindLocal hc) fun _ _ ↦ hresult).here hf
      · exact (keeps_bind (keeps_bindContents hc) fun _ _ ↦ hresult).here hf

theorem keeps_shrink (hsize : size.WellFormed) (example_ : Nat) :
    (shrink size example_ : Exec σ Nat).Keeps I fun n ↦ n ≤ example_ := by
  induction example_ using Nat.strongRecOn with
  | ind n ih =>
    rw [shrink]
    split
    · rename_i hlt
      have hhalf : n / 2 < n := Nat.div_lt_self (Nat.zero_lt_of_lt hlt) (by decide)
      refine keeps_bind (keeps_lift (Expr.safe_constant _ _)) fun half hconst ↦ ?_
      refine keeps_bind (keeps_lift (Expr.safe_mkCompare .eq hconst.1 hsize)) fun same hsame ↦ ?_
      refine keeps_bind (keeps_mayBeTrue hsame) fun b _ ↦ ?_
      split
      · exact (ih _ hhalf).mono fun _ hle ↦ Nat.le_trans hle (Nat.le_of_lt hhalf)
      · exact keeps_pure (Nat.le_refl n)
    · exact keeps_pure (Nat.le_refl n)

theorem keeps_allocateRest (hsize : size.WellFormed) (isLocal : Bool) (destination : Option Register)
    (replaced : Option MemoryObject) :
    (allocateRest size isLocal destination replaced : Exec σ Unit).Keeps I fun _ ↦ True := by
  refine keeps_bind (keeps_value hsize) fun value hvalue ↦ ?_
  refine keeps_bind (keeps_lift (Expr.safe_mkCompare .eq hvalue.1 hsize)) fun same hsame ↦ ?_
  refine keeps_bind (keeps_mustBeTrue hsame) fun b _ ↦ ?_
  split
  · exact keeps_allocate _ _ _ _
  · refine keeps_bind (keeps_lift (Expr.safe_constant _ _)) fun limit hlimit ↦ ?_
    refine keeps_bind (keeps_lift (Expr.safe_mkCompare .ult hlimit.1 hsize)) fun huge hhuge ↦ ?_
    refine keeps_bind (keeps_fork hhuge true) fun sides _ ↦ ?_
    refine keeps_bind (keeps_onSide _ (keeps_writeResult _ (Expr.pointer_wellFormed 0))) fun _ _ ↦ ?_
    exact keeps_onSide _ (keeps_bind keeps_executor fun _ _ ↦ keeps_terminateOnError _ _)

theorem keeps_allocateSized (hsize : size.WellFormed) (isLocal : Bool)
    (destination : Option Register) (replaced : Option MemoryObject) :
    (allocateSized size isLocal destination replaced : Exec σ Unit).Keeps I fun _ ↦ True := by
  refine keeps_bind (keeps_lift (Expr.safe_mkZext 64 hsize)) fun size hsize ↦ ?_
  refine keeps_bind (keeps_toUnique hsize.1) fun size hsize ↦ ?_
  split
  · exact keeps_allocate _ _ _ _
  · refine keeps_bind (keeps_value hsize.1) fun value _ ↦ ?_
    refine keeps_bind (keeps_shrink hsize.1 _) fun example_ _ ↦ ?_
    refine keeps_bind (keeps_lift (Expr.safe_constant _ _)) fun fixed hfixed ↦ ?_
    refine keeps_bind (keeps_lift (Expr.safe_mkCompare .eq hfixed.1 hsize.1)) fun same hsame ↦ ?_
    refine keeps_bind (keeps_fork hsame true) fun sides _ ↦ ?_
    refine keeps_bind (keeps_onSide _ (keeps_allocate _ _ _ _)) fun _ _ ↦ ?_
    exact keeps_onSide _ (keeps_allocateRest hsize.1 _ _ _)

theorem keeps_demandHeap (object : MemoryObject) :
    (demandHeap object : Exec σ Unit).Keeps I fun _ ↦ True := by
  have hglobal : (if object.isGlobal then fail .freeOfGlobal else pure () : Exec σ Unit).Keeps I
      fun _ ↦ True := by
    split
    · exact keeps_fail _
    · exact keeps_pure trivial
  unfold demandHeap
  dsimp only
  split
  · exact keeps_fail_bind _
  · exact hglobal

theorem keeps_onObjects {work : MemoryObject → Exec σ Unit} (side : Option Branch)
    (hpointer : pointer.WellFormed) (operation : String)
    (hwork : ∀ o, (work o).Keeps I fun _ ↦ True) :
    (onObjects side pointer operation work).Keeps I fun _ ↦ True := by
  cases side with
  | none => exact keeps_pure trivial
  | some side =>
    refine keeps_bind (keeps_onBranch side (keeps_resolveExact hpointer operation)) fun o _ ↦ ?_
    refine keeps_bind (keeps_forIn ?_) fun _ _ ↦ keeps_pure trivial
    rintro ⟨branch, object⟩ -
    exact keeps_bind (keeps_onSide _ (hwork object)) fun _ _ ↦ keeps_pure rfl

theorem keeps_free (hpointer : pointer.WellFormed) (destination : Option Register) :
    (free pointer destination : Exec σ Unit).Keeps I fun _ ↦ True := by
  have hnull : (writeResult destination (.pointer 0) : Exec σ Unit).Keeps I fun _ ↦ True :=
    keeps_writeResult _ (Expr.pointer_wellFormed 0)
  refine keeps_bind (keeps_fork hpointer.isZero true) fun sides _ ↦ ?_
  refine keeps_bind (keeps_onSide _ hnull) fun _ _ ↦ keeps_onObjects _ hpointer _ fun object ↦ ?_
  exact keeps_bind (keeps_demandHeap object) fun _ _ ↦ keeps_bind (keeps_unbindAll _) fun _ _ ↦ hnull

theorem keeps_reallocate (hpointer : pointer.WellFormed) (hsize : size.WellFormed)
    (destination : Option Register) :
    (reallocate pointer size destination : Exec σ Unit).Keeps I fun _ ↦ True := by
  refine keeps_bind (keeps_lift (Expr.safe_mkZext 64 hsize)) fun size hsize ↦ ?_
  refine keeps_bind (keeps_fork hsize.1.isZero true) fun sides _ ↦ ?_
  refine keeps_bind (keeps_onSide _ (keeps_free hpointer destination)) fun _ _ ↦ keeps_onSide _ ?_
  refine keeps_bind (keeps_fork hpointer.isZero true) fun sides _ ↦ ?_
  refine keeps_bind (keeps_onSide _ (keeps_allocateSized hsize.1 _ _ _)) fun _ _ ↦ ?_
  refine keeps_onObjects _ hpointer _ fun object ↦ ?_
  exact keeps_bind (keeps_demandHeap object) fun _ _ ↦ keeps_allocateSized hsize.1 _ _ _

/-! ## Inputs -/

theorem keeps_replaceContents (object : MemoryObject) {contents : ObjectState}
    (h : contents.WellFormed) :
    (replaceContents object contents : Exec σ Unit).Keeps I fun _ ↦ True :=
  keeps_updateState fun _ hs ↦ Checked.ends_bind hs.memory.safe_unbind fun _ hm ↦
    Checked.ends_bind (hm.safe_bind h) fun _ hm ↦ Checked.ends_pure (hs.withMemory hm)

theorem keeps_seedInputs (array : NamedArray) :
    (seedInputs array : Exec σ Unit).Keeps I fun _ ↦ True := by
  have hgo (config : Config) (id : StateId) : ∀ seeds done : List Seed,
      (seedInputs.go array config id done seeds : Exec σ Unit).Keeps I fun _ ↦ True := by
    intro seeds
    induction seeds with
    | nil => exact fun done ↦ keeps_setSeeds _ _
    | cons seed rest ih =>
      intro done
      unfold seedInputs.go
      split
      · exact ih _
      · exact keeps_fail _
  refine keeps_bind keeps_seeds? fun o _ ↦ ?_
  split
  · exact keeps_bind keeps_executor fun _ _ ↦ keeps_bind keeps_state fun _ _ ↦ hgo _ _ _ _
  · exact keeps_pure trivial

theorem keeps_replayInput (object : MemoryObject) (inputs : List TestInput) :
    (replayInput object inputs : Exec σ Unit).Keeps I fun _ ↦ True := by
  cases inputs with
  | nil => exact keeps_fail _
  | cons input rest =>
    have hreplace : (do
        replaceContents object (← ObjectState.withBytes object input.bytes) : Exec σ Unit).Keeps I
          fun _ ↦ True :=
      keeps_bind (keeps_lift (ObjectState.safe_withBytes object input.bytes)) fun _ hc ↦
        keeps_replaceContents object hc
    refine keeps_bind (keeps_modifyReports (fun _ ↦ rfl) (fun _ ↦ rfl) fun _ ↦ rfl) fun _ _ ↦ ?_
    split
    · exact keeps_fail_bind _
    · exact hreplace

theorem keeps_makeObjectSymbolic (object : MemoryObject) (name : String) (hsize : size.WellFormed) :
    (makeObjectSymbolic object name size : Exec σ Unit).Keeps I fun _ ↦ True := by
  unfold makeObjectSymbolic
  refine keeps_bind keeps_state fun s hs ↦ ?_
  dsimp only
  split
  · exact keeps_fail_bind _
  · refine keeps_bind (keeps_lift (Expr.safe_mkZext 64 hsize)) fun size hsize ↦ ?_
    refine keeps_bind (keeps_lift (Expr.safe_mkCompare .eq (Expr.pointer_wellFormed _) hsize.1))
      fun fits hfits ↦ keeps_bind (keeps_mustBeTrue hfits) fun b _ ↦ ?_
    split
    · refine keeps_bind keeps_executor fun e _ ↦ ?_
      split
      · exact keeps_replayInput object _
      · refine keeps_bind keeps_state fun s _ ↦ ?_
        refine keeps_bind (keeps_lift (ObjectState.safe_ofArray object _)) fun contents hc ↦ ?_
        refine keeps_bind (keeps_replaceContents object hc) fun _ _ ↦ ?_
        refine keeps_bind (keeps_updateState fun s hs ↦ Checked.ends_pure ?_) fun _ _ ↦ keeps_seedInputs _
        exact ⟨hs.valid, hs.satisfiable, hs.threads, hs.memory⟩
    · exact keeps_fail_bind _

theorem keeps_makeSymbolic (name : String) (hpointer : pointer.WellFormed)
    (hsize : size.WellFormed) :
    (makeSymbolic name pointer size : Exec σ Unit).Keeps I fun _ ↦ True := by
  refine keeps_bind (keeps_resolveExact hpointer _) fun resolved _ ↦ ?_
  refine keeps_bind (keeps_forIn ?_) fun _ _ ↦ keeps_pure trivial
  rintro ⟨branch, object⟩ -
  exact keeps_bind (keeps_onSide _ (keeps_makeObjectSymbolic object name hsize)) fun _ _ ↦
    keeps_pure rfl

end Exec

end Symex
