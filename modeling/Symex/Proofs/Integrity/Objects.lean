import Symex.Proofs.Integrity.Forks

namespace Symex

open Checked AddressSpace

variable {σ α : Type} {o : Origin} {fatal : Prop} {sh : Shape} {todo : List Branch} {f g h : Focus σ}

def Shape.Binds (sh : Shape) (object : MemoryObject) : Prop := (object.key, object) ∈ sh.objects

/-- The register for a result exists, if there is to be one. -/
def Shape.Accepts (sh : Shape) (destination : Option Register) : Prop :=
  ∀ r, destination = some r → sh.HasRegister r

def Access.Lands (sh : Shape) : Access → Prop
  | .load _ destination => sh.HasRegister destination
  | .store _ => True

theorem Access.found_mapValue {access : Access} (haccess : access.Lands sh) {u : Expr → Checked Expr}
    (hu : ∀ e, Plain (u e)) : Checked.Found (access.mapValue u) (·.Lands sh) := by
  cases access with
  | load width destination => exact ends_pure haccess
  | store value => exact ends_bind (hu value) fun _ _ ↦ ends_pure trivial

namespace Shape.Kept

variable {s : State} {p : Program} {n : Nat}

theorem sorted (hkept : s.shape.Kept p n) : s.memory.objects.Sorted := ascending_outline.1 hkept.ascending

theorem binds (hkept : s.shape.Kept p n) {x : ObjectState} (hx : x ∈ s.memory.toList) :
    s.shape.Binds x.object := by
  obtain ⟨key, hmem⟩ := object_mem_outline hx
  obtain rfl : key = x.object.key := hkept.owned.keyed _ hmem
  exact hmem

end Shape.Kept

theorem Stand.reserve {size : Nat} {isLocal : Bool} {site : AllocationSite} {name : String}
    {object : MemoryObject} {allocator : Allocator} {pool : AddressPool} (hg : Stand o sh [.current] f g)
    (hnew : g.executor.allocator.allocate g.state.pool size isLocal false site name =
      some (object, allocator, pool)) :
    Stand o { sh with pool } [.current] f { g with executor.allocator := allocator, state.pool := pool } ∧
      object.id < allocator.nextId ∧ object.isLocal = isLocal ∧ object.Fits o.program sh.objects pool := by
  obtain ⟨rfl, hkept, htrace⟩ := hg.own_eq (by simp)
  obtain ⟨hid, hnext, hlocal, hfits, howned⟩ := hkept.owned.reserve (Nat.le_refl _) hnew
  have halone : g.Alone { g with executor.allocator := allocator, state.pool := pool } := by
    refine ⟨rfl, rfl, rfl, rfl, rfl, rfl, ?_, rfl, fun _ ↦ id, fun _ ↦ .inl⟩
    change g.executor.allocator.nextId ≤ allocator.nextId
    omega
  refine ⟨hg.turn halone ⟨howned.mono (Nat.le_of_eq hnext.symm), hkept.ascending⟩ htrace, ?_, hlocal, hfits⟩
  omega

namespace Exec

/-! ## Access -/

section

variable {access : Access} {address offset : Expr}

theorem finishes_perform (hsh : sh.Controlled o.program) (haccess : access.Lands sh) (object : MemoryObject)
    (offset : Expr) : (perform access object offset : Exec σ Unit).Finishes o fatal sh [.current] := by
  refine works_bind works_state ?_
  rintro s _ ⟨rfl, ⟨n, hkept⟩, rfl⟩
  split
  · exact works_fail rfl
  · rename_i contents hfind
    have hmem : (object.key, contents.object) ∈ s.shape.objects := mem_outline_of_find? hkept.sorted hfind
    cases access with
    | load width destination =>
      refine works_bind (works_lift (contents.plain_read offset width)) ?_
      rintro value _ ⟨-, rfl⟩
      exact finishes_write hsh haccess value
    | store value =>
      have hstore : (updateState fun s ↦ do
          return { s with memory := ← s.memory.modify object (·.write offset value) } :
          Exec σ Unit).Finishes o fatal s.shape [.current] := by
        refine finishes_updateState fun s' n' hshape hkept' ↦ ?_
        rw [← hshape] at hsh hkept' hmem
        refine (State.found_modify hkept'.ascending ⟨_, hmem⟩ fun x ↦ x.found_write value offset).mono ?_
        rintro s'' ⟨hid, hshape'⟩
        rw [hshape']
        exact ⟨hid, hsh, hkept'⟩
      dsimp only
      split
      · exact works_fail_bind rfl
      · exact hstore

theorem works_findObject (address : Expr) :
    (findObject address : Exec σ _).Works o fatal sh [.current] fun _ left ↦ left = [.current] := by
  refine works_bind works_state ?_
  rintro s _ ⟨rfl, ⟨n, hkept⟩, rfl⟩
  refine works_bind (still_ask fun c ↦ looks_resolveSymbolic c address s.memory hkept.sorted).works ?_
  rintro r _ ⟨-, rfl⟩
  split
  · exact works_pure rfl
  · refine works_bind (still_toConstant address).works ?_
    rintro address _ ⟨-, rfl⟩
    exact works_bind still_state.works fun _ _ h ↦ works_pure h.2

theorem works_resolve (address : Expr) : (resolve address : Exec σ Resolution).Works o fatal sh [.current]
    fun r left ↦ (∀ object ∈ r.objects.map (·.object), sh.Binds object) ∧ left = [.current] := fun f g hg ↦ by
  obtain ⟨hshape, hkept, -⟩ := hg.own_eq (by simp)
  rw [← hshape] at hkept
  refine ends_bind_ok rfl (ends_lift_bind
    ((looks_resolve _ address g.state.memory hkept.sorted _ _ _).ordinary.mono fun q hq ↦ ?_))
  have hh := hg.rests (Focus.Still.toRests (.of_executor (e := { g.executor with solver := q.2 })
    rfl rfl rfl rfl rfl rfl rfl rfl))
  refine ends_bind_ok rfl (ends_pure ⟨_, ⟨fun object hobject ↦ ?_, rfl⟩, hh⟩)
  obtain ⟨x, hx, rfl⟩ := List.mem_map.1 hobject
  rw [← hshape]
  exact hkept.binds (hq x hx)

theorem works_eachObject {condition : MemoryObject → Checked Expr}
    {work : Branch → MemoryObject → Exec σ (Option α)} (place : α → Option Branch) {P : α → Prop}
    (hcondition : ∀ object, Plain (condition object)) (objects : List MemoryObject)
    (hwork : ∀ b, ∀ object ∈ objects, ∀ todo, (work b object).Works o False sh (b :: todo) fun r left ↦
      left = (r.bind place).toList ++ todo ∧ ∀ a, r = some a → P a) (remaining : Option Branch)
    (todo : List Branch) :
    (eachObject condition work objects remaining).Works o False sh (remaining.toList ++ todo) fun r left ↦
      left.Perm (r.1.filterMap place ++ (r.2.toList ++ todo)) ∧ ∀ a ∈ r.1, P a := by
  induction objects generalizing remaining todo with
  | nil => exact works_pure ⟨.rfl, by simp⟩
  | cons object rest ih =>
    rw [forall_congr' fun _ ↦ List.forall_mem_cons] at hwork
    cases remaining with
    | none => exact works_pure ⟨.rfl, by simp⟩
    | some branch =>
      have hrest : ∀ (outside : Option Branch) (here : Option α), (∀ a, here = some a → P a) → (do
          let later ← eachObject condition work rest outside
          return (here.toList ++ later.1, later.2) : Exec σ _).Works o False sh
            ((here.bind place).toList ++ (outside.toList ++ todo)) fun r left ↦
              left.Perm (r.1.filterMap place ++ (r.2.toList ++ todo)) ∧ ∀ a ∈ r.1, P a := by
        intro outside here hhere
        -- what is left of this part waits until the others are done
        have hlater : ((here.bind place).toList ++ (outside.toList ++ todo)).Perm
            (outside.toList ++ ((here.bind place).toList ++ todo)) := List.perm_append_comm_assoc _ _ _
        have hplace : here.toList.filterMap place = (here.bind place).toList := by
          cases here with
          | none => rfl
          | some a => cases hp : place a <;> simp [hp]
        refine works_bind ((ih (fun b ↦ (hwork b).2) outside _).perm hlater.symm) ?_
        rintro ⟨others, remaining⟩ left ⟨hleft, hothers⟩
        refine works_pure ⟨hleft.trans ?_, fun a ha ↦ ?_⟩
        · rw [List.filterMap_append, hplace, List.append_assoc]
          exact ((List.perm_append_comm_assoc _ _ _).append_left _).trans (List.perm_append_comm_assoc _ _ _)
        · obtain ha | ha := List.mem_append.1 ha
          · exact hhere a (Option.mem_toList.1 ha)
          · exact hothers a ha
      refine works_bind (works_lift (hcondition object)) ?_
      rintro c _ ⟨-, rfl⟩
      refine works_bind (works_forkOn c) ?_
      rintro ⟨inside, outside⟩ _ rfl
      cases inside with
      | none => exact hrest outside none nofun
      | some inside =>
        refine works_bind ((hwork inside).1 _) ?_
        rintro here _ ⟨rfl, hhere⟩
        exact hrest outside here hhere

theorem finishes_reportPointer (address : Expr) (e : ExecError) : (do
    let details ← addressInfo address
    terminateOnError ⟨(← executor).location, e⟩ (some details) : Exec σ Unit).Finishes o fatal sh [.current] := by
  refine works_bind (still_addressInfo address).works ?_
  rintro details _ ⟨-, rfl⟩
  refine works_bind works_executor ?_
  rintro e' _ ⟨-, -, rfl⟩
  exact finishes_terminateOnError _ _

theorem finishes_accessEach (hsh : sh.Controlled o.program) (haccess : access.Lands sh) (address : Expr) :
    (accessEach access address : Exec σ Unit).Finishes o False sh [.current] := by
  refine works_bind (works_resolve address) ?_
  rintro resolution _ ⟨-, rfl⟩
  refine works_bind (works_lift (Bits.plain_byteCountChecked _)) ?_
  rintro bytes _ ⟨-, rfl⟩
  refine works_bind (works_eachObject (fun _ : Unit ↦ none) (P := fun _ ↦ True)
    (fun object ↦ object.plain_pointerAccessInside address bytes) _ (fun b object _ todo ↦ ?_) (some .current)
    []) ?_
  · have hperform : (do perform access object (← object.offset address) : Exec σ Unit).Finishes o False sh
        [.current] := by
      refine works_bind (works_lift (object.plain_offset address)) ?_
      rintro offset _ ⟨-, rfl⟩
      exact finishes_perform hsh haccess object offset
    refine (works_onBranch hperform nofun).mono id ?_
    rintro _ _ (⟨rfl, rfl⟩ | ⟨_, _, rfl, rfl, rfl⟩)
    · exact ⟨rfl, fun _ _ ↦ trivial⟩
    · exact ⟨rfl, fun _ _ ↦ trivial⟩
  · rintro ⟨_, remaining⟩ left ⟨hleft, -⟩
    have hnone : ∀ l : List Unit, l.filterMap (fun _ ↦ (none : Option Branch)) = [] := by simp
    rw [hnone, List.nil_append, List.append_nil] at hleft
    refine Works.perm (finishes_onSide ?_ nofun) hleft.symm
    split
    · exact finishes_terminateWith _ _
    · exact finishes_reportPointer address _

theorem finishes_access_simplified (hsh : sh.Controlled o.program) (haccess : access.Lands sh)
    (address : Expr) (config : Config) (bytes : Nat) :
    (do
      let (found, address) ← findObject address
      match found with
      | none => accessEach access address
      | some object =>
        let offset ← object.offset address
        let large := config.maxSymbolicArraySize ≠ 0 ∧ config.maxSymbolicArraySize ≤ object.size
        let offset ← if large ∧ !offset.isConst then toConstant offset else pure offset
        let inside ← object.accessInside offset bytes
        if ← query (Solver.mustBeTrue · inside) then perform access object offset
        else accessEach access address : Exec σ Unit).Finishes o False sh [.current] := by
  refine works_bind (works_findObject address) ?_
  rintro ⟨found, address⟩ _ rfl
  cases found with
  | none => exact finishes_accessEach hsh haccess address
  | some object =>
    have hend : ∀ offset : Expr, (do
        let inside ← object.accessInside offset bytes
        if ← query (Solver.mustBeTrue · inside) then perform access object offset
        else accessEach access address : Exec σ Unit).Finishes o False sh [.current] := by
      intro offset
      refine works_bind (works_lift (object.plain_accessInside offset bytes)) ?_
      rintro inside _ ⟨-, rfl⟩
      refine works_bind (still_query fun c ↦ Solver.looks_mustBeTrue c inside).works ?_
      rintro certain _ ⟨-, rfl⟩
      split
      · exact finishes_perform hsh haccess object offset
      · exact finishes_accessEach hsh haccess address
    refine works_bind (works_lift (object.plain_offset address)) ?_
    rintro offset _ ⟨-, rfl⟩
    dsimp only
    split
    · refine works_bind (still_toConstant offset).works ?_
      rintro offset _ ⟨-, rfl⟩
      exact hend offset
    · exact works_bind (works_pure (Q := fun _ left ↦ left = _) rfl) fun offset _ h ↦ h ▸ hend offset

theorem finishes_access (hsh : sh.Controlled o.program) (haccess : access.Lands sh) (address : Expr) :
    (Exec.access access address : Exec σ Unit).Finishes o False sh [.current] := by
  refine works_bind works_executor ?_
  rintro e _ ⟨-, -, rfl⟩
  refine works_bind (works_lift (Bits.plain_byteCountChecked _)) ?_
  rintro bytes _ ⟨-, rfl⟩
  refine works_bind still_state.works ?_
  rintro s _ ⟨-, rfl⟩
  dsimp only
  split
  · refine works_bind (works_lift (s.constraints.plain_simplify address)) ?_
    rintro address _ ⟨-, rfl⟩
    refine works_bind (works_lift (Access.found_mapValue haccess s.constraints.plain_simplify)) ?_
    rintro access _ ⟨haccess, rfl⟩
    rw [pure_bind]
    exact finishes_access_simplified hsh haccess address e.config bytes
  · rw [pure_bind]
    exact finishes_access_simplified hsh haccess address e.config bytes

theorem works_resolveExact (address : Expr) (operation : String) :
    (resolveExact address operation : Exec σ _).Works o False sh [.current] fun resolved left ↦
      left.Perm (resolved.map (·.1)) ∧ ∀ q ∈ resolved, sh.Binds q.2 := by
  refine works_bind (works_resolve address) ?_
  rintro resolution _ ⟨hbinds, rfl⟩
  refine works_bind (works_eachObject (fun q : Branch × MemoryObject ↦ some q.1)
    (P := fun q ↦ sh.Binds q.2) (fun _ ↦ Expr.plain_mkEq _ _) _ (fun b object hobject todo ↦ ?_)
    (some .current) []) ?_
  · refine works_pure ⟨rfl, ?_⟩
    rintro _ ⟨⟩
    exact hbinds object hobject
  · rintro ⟨resolved, remaining⟩ left ⟨hleft, hresolved⟩
    have hplaces : left.Perm (remaining.toList ++ resolved.map (·.1)) := by
      rw [List.append_nil, List.filterMap_eq_map'] at hleft
      exact hleft.trans List.perm_append_comm
    refine works_bind ((works_onSide (finishes_reportPointer address _) nofun).perm hplaces.symm) ?_
    rintro _ _ rfl
    exact works_pure ⟨.rfl, hresolved⟩

end

/-! ## Allocation -/

variable {destination : Option Register} {replaced : Option MemoryObject}

theorem found_bindNew {isLocal : Bool} {object : MemoryObject} {contents : ObjectState}
    (hg : Stand o g.state.shape [.current] f g) (horder : g.state.shape.InOrder o.program g.bound)
    (hcontents : contents.object = object)
    (hfits : object.Fits o.program g.state.shape.objects g.state.shape.pool) (hid : object.id < g.bound)
    (hlocal : object.isLocal = isLocal) (hr : g.state.shape.Accepts destination) :
    (do
      if isLocal then updateState (·.bindLocal contents)
      else updateState fun s ↦ return { s with memory := ← s.memory.bind contents }
      writeResult destination object.base : Exec σ Unit).Found g
        (Ending o fatal sh (fun _ left ↦ left = []) f) := by
  subst hcontents
  have hend : ∀ s : State, s.id = g.state.id → s.shape.InOrder o.program g.bound →
      (∀ r, g.state.shape.HasRegister r → s.shape.HasRegister r) →
      (writeResult destination contents.object.base : Exec σ Unit).Found { g with state := s }
        (Ending o fatal sh (fun _ left ↦ left = []) f) := fun s hsid horder' hregisters ↦
    (finishes_writeResult horder'.controlled (fun d hd ↦ hregisters d (hr d hd)) _).found
      (hg.turn (.of_state hsid) horder'.kept horder'.traceable)
  split
  · rename_i htrue
    refine ends_updateState_bind ((State.found_bindLocal horder hfits hid (hlocal.trans htrue)).ordinary.mono ?_)
    exact fun s hs ↦ hend s hs.1 hs.2.1 hs.2.2
  · rename_i hfalse
    refine ends_updateState_bind ((State.found_bindHeap horder hfits hid ?_).ordinary.mono ?_)
    · rw [hlocal]
      simpa using hfalse
    · exact fun s hs ↦ hend s hs.1 hs.2.1 hs.2.2

theorem finishes_allocate (hsh : sh.Controlled o.program) (hr : sh.Accepts destination)
    (hreplaced : ∀ old, replaced = some old → sh.Binds old ∧ old.isLocal = false) (size : Nat)
    (isLocal : Bool) :
    (allocate size isLocal destination replaced : Exec σ Unit).Finishes o fatal sh [.current] := by
  intro f g hg
  refine ends_bind_ok rfl (ends_bind (P := fun r h ↦ r = .ok none ∧ h = g ∨
    ∃ object pool, r = .ok (some object) ∧ Stand o { sh with pool } [.current] f h ∧
      object.id < h.bound ∧ object.isLocal = isLocal ∧ object.Fits o.program sh.objects pool) ?_ ?_ ?_)
  · refine ends_bind_ok rfl ?_
    split
    · exact ends_pure (.inl ⟨rfl, rfl⟩)
    · rename_i object allocator pool hnew
      obtain ⟨hh, hid, hlocal, hfits⟩ := hg.reserve hnew
      exact ends_bind_ok rfl (ends_pure (.inr ⟨object, pool, rfl, hh, hid, hlocal, hfits⟩))
  · rintro _ h (⟨⟨⟩, rfl⟩ | ⟨object, pool, ⟨⟩, hh, hid, hlocal, hfits⟩)
    · exact finishes_writeResult hsh hr _ f h hg
    obtain ⟨hshape, hkept, -⟩ := hh.own_eq (by simp)
    have hsh' : h.state.shape.Controlled o.program := hshape ▸ ⟨hsh.nodup, hsh.id_lt, hsh.others, hsh.current⟩
    have hr' : h.state.shape.Accepts destination := hshape ▸ hr
    have hfits' : object.Fits o.program h.state.shape.objects h.state.shape.pool := hshape ▸ hfits
    rw [← hshape] at hh hkept
    refine ends_lift_bind ((ObjectState.found_zeroed object).ordinary.mono fun contents hcontents ↦ ?_)
    cases replaced with
    | none => exact ends_bind_ok rfl (found_bindNew hh ⟨hsh', hkept⟩ hcontents hfits' hid hlocal hr')
    | some old =>
      obtain ⟨hbinds, hheap⟩ := hreplaced old rfl
      have hold : (old.key, old) ∈ h.state.shape.objects := hshape ▸ hbinds
      have hrest : ∀ contents : ObjectState, contents.object = object → (do
          updateState (·.unbindAll [old])
          let contents ← pure contents
          if isLocal then updateState (·.bindLocal contents)
          else updateState fun s ↦ return { s with memory := ← s.memory.bind contents }
          writeResult destination object.base : Exec σ Unit).Found h
            (Ending o fatal sh (fun _ left ↦ left = []) f) := by
        intro contents hcontents
        refine ends_updateState_bind ((State.found_unbind ⟨hsh', hkept⟩ hold hheap).ordinary.mono ?_)
        rintro s ⟨hsid, horder, hregisters, hsub, hpool⟩
        refine ends_bind_ok rfl (found_bindNew (hh.turn (.of_state hsid) horder.kept horder.traceable) horder
          hcontents ?_ hid hlocal fun d hd ↦ hregisters d (hr' d hd))
        have hfits' := hfits'.subset hsub
        rwa [← hpool] at hfits'
      refine ends_bind_ok rfl ?_
      dsimp only
      split
      · refine ends_lift_bind ((found_copyBytes _ contents).ordinary.mono fun contents' hcontents' ↦ ?_)
        exact hrest contents' (hcontents'.trans hcontents)
      · exact ends_bind_ok rfl (hrest contents hcontents)
  · rintro _ _ (⟨⟨⟩, -⟩ | ⟨_, _, ⟨⟩, -⟩)

theorem still_shrink (size : Expr) (example_ : Nat) : (shrink size example_ : Exec σ Nat).Still fun _ ↦ True := by
  induction example_ using Nat.strongRecOn with
  | ind n ih =>
    rw [shrink]
    split
    · rename_i hlt
      refine still_bind (still_lift (Expr.plain_constant _ _)) fun _ _ ↦
        still_bind (still_lift (Expr.plain_mkEq _ _)) fun half _ ↦
          still_bind (still_query fun c ↦ Solver.looks_mayBeTrue c half) fun possible _ ↦ ?_
      split
      · exact ih _ (Nat.div_lt_self (Nat.zero_lt_of_lt hlt) (by decide))
      · exact still_pure trivial
    · exact still_pure trivial

theorem finishes_allocateRest (hsh : sh.Controlled o.program) (hr : sh.Accepts destination)
    (hreplaced : ∀ old, replaced = some old → sh.Binds old ∧ old.isLocal = false) (size : Expr)
    (isLocal : Bool) :
    (allocateRest size isLocal destination replaced : Exec σ Unit).Finishes o False sh [.current] := by
  refine works_bind (still_query fun c ↦ Solver.looks_value c size).works ?_
  rintro value _ ⟨-, rfl⟩
  refine works_bind (works_lift (Expr.plain_mkEq value size)) ?_
  rintro same _ ⟨-, rfl⟩
  refine works_bind (still_query fun c ↦ Solver.looks_mustBeTrue c same).works ?_
  rintro certain _ ⟨-, rfl⟩
  split
  · exact finishes_allocate hsh hr hreplaced _ isLocal
  · refine works_bind (works_lift (Expr.plain_constant _ _)) ?_
    rintro limit _ ⟨-, rfl⟩
    refine works_bind (works_lift (Expr.plain_mkCompare .ult limit size)) ?_
    rintro large _ ⟨-, rfl⟩
    refine works_bind (works_fork large true nofun) ?_
    rintro ⟨huge, small⟩ _ rfl
    refine works_bind (works_onSide (finishes_writeResult hsh hr _) nofun) ?_
    rintro _ _ rfl
    refine finishes_onSide (works_bind works_executor ?_) nofun
    rintro e _ ⟨-, -, rfl⟩
    exact finishes_terminateOnError _ _

theorem finishes_allocateSized (hsh : sh.Controlled o.program) (hr : sh.Accepts destination)
    (hreplaced : ∀ old, replaced = some old → sh.Binds old ∧ old.isLocal = false) (size : Expr)
    (isLocal : Bool) :
    (allocateSized size isLocal destination replaced : Exec σ Unit).Finishes o False sh [.current] := by
  refine works_bind (works_lift (Expr.plain_mkZext size 64)) ?_
  rintro size _ ⟨-, rfl⟩
  refine works_bind (still_toUnique size).works ?_
  rintro size _ ⟨-, rfl⟩
  split
  · exact finishes_allocate hsh hr hreplaced _ isLocal
  · refine works_bind (still_query fun c ↦ Solver.looks_value c size).works ?_
    rintro value _ ⟨-, rfl⟩
    refine works_bind (still_shrink size _).works ?_
    rintro example_ _ ⟨-, rfl⟩
    refine works_bind (works_lift (Expr.plain_constant _ _)) ?_
    rintro fixed _ ⟨-, rfl⟩
    refine works_bind (works_lift (Expr.plain_mkEq fixed size)) ?_
    rintro same _ ⟨-, rfl⟩
    refine works_bind (works_fork same true (by simp)) ?_
    rintro ⟨fixed, other⟩ _ rfl
    refine works_bind (works_onSide (finishes_allocate hsh hr hreplaced _ isLocal) False.elim) ?_
    rintro _ _ rfl
    exact finishes_onSide (finishes_allocateRest hsh hr hreplaced size isLocal) False.elim

theorem finishes_allocateNew (hsh : sh.Controlled o.program) (hr : sh.Accepts destination) (size : Expr)
    (isLocal : Bool) : (allocateSized size isLocal destination none : Exec σ Unit).Finishes o False sh [.current] :=
  finishes_allocateSized hsh hr (by rintro _ ⟨⟩) size isLocal

theorem still_demandHeap (object : MemoryObject) :
    (demandHeap object : Exec σ Unit).Still fun _ ↦ object.isLocal = false := by
  unfold demandHeap
  dsimp only
  split
  · exact still_bind (still_fail (R := fun _ ↦ False) rfl) fun _ h ↦ h.elim
  · rename_i hlocal
    split
    · exact still_fail rfl
    · exact still_pure (by simpa using hlocal)

theorem finishes_onObjects {side : Option Branch} {work : MemoryObject → Exec σ Unit} (pointer : Expr)
    (operation : String)
    (hwork : ∀ object, sh.Binds object → (work object).Finishes o False sh [.current]) :
    (onObjects side pointer operation work).Finishes o False sh side.toList := by
  cases side with
  | none => exact works_pure rfl
  | some side =>
    refine works_bind (works_onBranch (works_resolveExact pointer operation) nofun) ?_
    intro r left hleft
    have hresolved : left.Perm ((r.getD []).filterMap fun q ↦ some (q.1.relativeTo side)) ∧
        ∀ q ∈ r.getD [], sh.Binds q.2 := by
      obtain ⟨rfl, rfl⟩ | ⟨resolved, parts, rfl, ⟨hparts, hbinds⟩, rfl⟩ := hleft
      · exact ⟨.rfl, by simp⟩
      · rw [List.append_nil, List.filterMap_eq_map', Option.getD_some]
        have hmap := hparts.map (·.relativeTo side)
        rw [List.map_map] at hmap
        exact ⟨hmap, hbinds⟩
    exact works_bind ((finishes_forIn (fun q hq ↦ hwork q.2 (hresolved.2 q hq)) nofun).perm hresolved.1.symm)
      fun _ _ h ↦ works_pure h

theorem finishes_free (hsh : sh.Controlled o.program) (hr : sh.Accepts destination) (pointer : Expr) :
    (free pointer destination : Exec σ Unit).Finishes o False sh [.current] := by
  refine works_bind (works_fork pointer.isZero true nofun) ?_
  rintro ⟨null, pointing⟩ _ rfl
  refine works_bind (works_onSide (finishes_writeResult hsh hr _) nofun) ?_
  rintro _ _ rfl
  refine finishes_onObjects pointer "free" fun object hobject ↦ ?_
  refine works_bind (still_demandHeap object).works ?_
  rintro _ _ ⟨hheap, rfl⟩
  refine finishes_updateState_bind (S := fun sh' ↦ sh'.Controlled o.program ∧ sh'.Accepts destination)
    (fun s n hshape hkept ↦ ?_) fun sh' hsh' ↦ finishes_writeResult hsh'.1 hsh'.2 _
  subst hshape
  refine (State.found_unbind ⟨hsh, hkept⟩ hobject hheap).mono ?_
  rintro s' ⟨hid, horder, hregisters, -⟩
  exact ⟨hid, horder.traceable, horder.kept, horder.controlled, fun d hd ↦ hregisters d (hr d hd)⟩

theorem finishes_reallocate (hsh : sh.Controlled o.program) (hr : sh.Accepts destination)
    (pointer size : Expr) :
    (reallocate pointer size destination : Exec σ Unit).Finishes o False sh [.current] := by
  refine works_bind (works_lift (Expr.plain_mkZext size 64)) ?_
  rintro size _ ⟨-, rfl⟩
  refine works_bind (works_fork size.isZero true nofun) ?_
  rintro ⟨empty, sized⟩ _ rfl
  refine works_bind (works_onSide (finishes_free hsh hr pointer) nofun) ?_
  rintro _ _ rfl
  refine finishes_onSide ?_ nofun
  refine works_bind (works_fork pointer.isZero true nofun) ?_
  rintro ⟨null, pointing⟩ _ rfl
  refine works_bind (works_onSide (finishes_allocateNew hsh hr size false) nofun) ?_
  rintro _ _ rfl
  refine finishes_onObjects pointer "realloc" fun object hobject ↦ ?_
  refine works_bind (still_demandHeap object).works ?_
  rintro _ _ ⟨hheap, rfl⟩
  refine finishes_allocateSized hsh hr ?_ size false
  rintro _ ⟨⟩
  exact ⟨hobject, hheap⟩

/-! ## Inputs -/

theorem still_seedInputs (array : NamedArray) : (seedInputs array : Exec σ Unit).Still fun _ ↦ True := by
  have herror : ∀ (config : Config) (seed : Seed) (e : ExecError), seedInput config array seed = .error e →
      e.isFatal = false := by
    intro config seed e he
    unfold seedInput at he
    split at he
    · split at he
      · cases he
      · split at he
        · cases he
        · obtain rfl := Except.error.inj he
          rfl
    · dsimp only at he
      split at he
      · obtain rfl := Except.error.inj he
        rfl
      · split at he <;> cases he
  have hgo : ∀ (config : Config) (id : StateId) (seeds done : List Seed),
      (seedInputs.go array config id done seeds : Exec σ Unit).Still fun _ ↦ True := by
    intro config id seeds
    induction seeds with
    | nil =>
      intro done
      exact still_setSeeds id _
    | cons seed rest ih =>
      intro done
      unfold seedInputs.go
      split
      · exact ih _
      · rename_i e he
        exact still_fail (herror config seed e he)
  refine still_bind still_seeds? fun r _ ↦ ?_
  split
  · exact still_bind still_executor fun _ _ ↦ still_bind still_state fun _ _ ↦ hgo _ _ _ _
  · exact still_pure trivial

theorem works_fail_fatal {Q : α → List Branch → Prop} (hsh : sh.Controlled o.program) (e : ExecError) :
    (fail e : Exec σ α).Works o True sh [.current] Q := fun f g hg ↦ by
  obtain ⟨rfl, hkept, htrace⟩ := hg.own_eq (by simp)
  exact ends_fail (hg.fails (Focus.Still.refl g).toAlone htrace fun _ ↦ ⟨trivial, .inl ⟨hsh, hkept⟩⟩)

theorem finishes_makeObjectSymbolic (hsh : sh.Controlled o.program) {object : MemoryObject}
    (hobject : sh.Binds object) (name : String) (size : Expr) :
    (makeObjectSymbolic object name size : Exec σ Unit).Finishes o True sh [.current] := by
  have hreplace : ∀ (contents : ObjectState), contents.object = object → ∀ (s : State) (n : Nat), s.shape = sh →
      sh.Kept o.program n → Checked.Found (do
        return { s with memory := ← (← s.memory.unbind object).bind contents } : Checked State) fun s' ↦
          s'.id = s.id ∧ s'.shape.InOrder o.program n := by
    intro contents hcontents s n hshape hkept
    subst hshape
    exact State.found_replaceContents ⟨hsh, hkept⟩ hobject hcontents
  refine works_bind still_state.works ?_
  rintro s _ ⟨-, rfl⟩
  dsimp only
  split
  · exact works_fail_bind rfl
  · refine works_bind (works_lift (Expr.plain_mkZext size 64)) ?_
    rintro size _ ⟨-, rfl⟩
    refine works_bind (works_lift (Expr.plain_mkEq _ size)) ?_
    rintro fits _ ⟨-, rfl⟩
    refine works_bind (still_query fun c ↦ Solver.looks_mustBeTrue c fits).works ?_
    rintro certain _ ⟨-, rfl⟩
    split
    · refine works_bind works_executor ?_
      rintro e _ ⟨-, -, rfl⟩
      split
      · rename_i inputs _
        cases inputs with
        | nil => exact works_fail_fatal hsh _
        | cons input rest =>
          have hinput (hsize : input.bytes.size = object.size) : (do
              replaceContents object (← ObjectState.withBytes object input.bytes) :
              Exec σ Unit).Finishes o True sh [.current] := by
            refine works_bind (works_lift (ObjectState.found_withBytes hsize)) ?_
            rintro contents _ ⟨hcontents, rfl⟩
            exact finishes_updateState (hreplace contents hcontents)
          refine works_bind (still_modifyExecutor fun _ ↦
            .of_executor rfl rfl rfl rfl rfl rfl rfl rfl).works ?_
          rintro _ _ ⟨-, rfl⟩
          split
          · exact works_bind (works_fail_fatal (Q := fun _ _ ↦ False) hsh _) fun _ _ h ↦ h.elim
          · exact hinput (Decidable.of_not_not ‹_›)
      · refine works_bind still_state.works ?_
        rintro s _ ⟨-, rfl⟩
        refine works_bind (works_lift (ObjectState.found_ofArray object _)) ?_
        rintro contents _ ⟨hcontents, rfl⟩
        refine finishes_updateState_bind (S := (·.Controlled o.program)) (fun s n hshape hkept ↦
          (hreplace contents hcontents s n hshape hkept).mono fun s' hs' ↦
            ⟨hs'.1, hs'.2.traceable, hs'.2.kept, hs'.2.controlled⟩) fun sh' hsh' ↦ ?_
        refine Works.finishes (Still.works (still_bind (R := fun _ ↦ True) ?_ fun _ _ ↦ still_seedInputs _)) hsh'
        exact still_updateState fun s ↦ Checked.ends_pure ⟨rfl, rfl⟩
    · exact works_fail_bind rfl

theorem finishes_makeSymbolic (hsh : sh.Controlled o.program) (hstart : o.start.Controlled o.program)
    (name : String) (pointer size : Expr) :
    (makeSymbolic name pointer size : Exec σ Unit).Finishes o True sh [.current] := by
  refine works_bind ((works_resolveExact pointer "make_symbolic").mono nofun fun _ _ h ↦ h) ?_
  rintro resolved left ⟨hleft, hbinds⟩
  have hplaces : (resolved.filterMap fun q ↦ some q.1).Perm left := by
    rw [List.filterMap_eq_map']
    exact hleft.symm
  refine works_bind ((finishes_forIn (fun q hq ↦ ?_) fun _ ↦ ⟨hsh, hstart⟩).perm hplaces) fun _ _ h ↦
    works_pure h
  exact finishes_makeObjectSymbolic hsh (hbinds q hq) name size

end Exec

end Symex
