import Symex.Proofs.Integrity.Objects

namespace Symex

open Checked

variable {σ : Type} {o : Origin} {fatal : Prop} {sh : Shape} {f g h : Focus σ}

/-! ## Functions -/

namespace Program

variable {p : Program} {id : FunctionId} {address : Nat}

theorem found_function (h : id < p.functions.size) :
    Checked.Found (p.function id) fun callee ↦ p.functions[id]? = some callee := by
  unfold function
  rw [Array.getElem?_eq_getElem h]
  exact ends_pure rfl

theorem lt_of_functionAt? (h : p.functionAt? address = some id) : id < p.functions.size := by
  unfold functionAt? at h
  dsimp only at h
  split at h
  · cases h
  · split at h
    · rename_i hlt
      exact Option.some.inj h ▸ hlt.2
    · cases h

end Program

theorem Shape.Midway.hasRegister {p : Program} {l : Location} {i : Instruction} {d : Register}
    (hsh : sh.Midway p l) (hp : p.isValid) (hi : p.instruction? l = some i) (hd : i.destination? = some d) :
    sh.HasRegister d := by
  obtain ⟨function, hfunction, hnames⟩ := Program.exists_names hp hi
  obtain ⟨t, ht, hid, hmidway⟩ := hsh.current
  obtain ⟨top, rest, hstack, htop, hlinked⟩ := hmidway.inside
  obtain ⟨function', hfunction', hregisters⟩ := hlinked.sized
  rw [htop, hfunction] at hfunction'
  obtain rfl := Option.some.inj hfunction'
  exact ⟨t, ⟨ht, hid⟩, top, rest, hstack, hregisters ▸ hnames.destination d hd⟩

/-! ## The host -/

namespace AddressSpace

theorem found_copyIn {s : State} {p : Program} {n : Nat} (hkept : s.shape.Kept p n) (image : HostMemory) :
    Checked.Found (s.memory.copyIn image) fun q ↦ q.2.outline = s.memory.outline := by
  unfold copyIn
  split
  · exact ends_pure rfl
  · rename_i changed hchanged
    refine ends_bind (ends_foldlM (P := fun m : AddressSpace ↦ m.outline = s.memory.outline) rfl
      fun q hq m hm ↦ ?_) fun m hm ↦ ends_pure hm
    obtain ⟨x, hx, hobject, -⟩ := exists_of_mem_changes hchanged hq
    have hmem : (q.1.key, q.1) ∈ m.outline := by
      rw [hm, ← hobject]
      exact hkept.binds hx
    have hsorted : m.objects.Sorted := by
      rw [← ascending_outline, hm]
      exact hkept.ascending
    refine (found_modify hsorted ⟨_, hmem⟩ fun y ↦ ends_foldlM rfl fun b _ z hz ↦ ?_).mono fun _ h ↦ h.trans hm
    exact (z.found_writeByte _ _).mono fun _ h ↦ h.trans hz

end AddressSpace

namespace Exec

/-! ## Schedules -/

theorem finishes_switchTo (hsh : sh.Loose o.program) {id : ThreadId}
    (hid : ∃ t ∈ sh.threads, t.enabled = true ∧ t.id = id) (preempts : Bool) :
    (switchTo id preempts : Exec σ Unit).Finishes o fatal sh [.current] := by
  refine finishes_updateState fun s n hshape hkept ↦ ?_
  subst hshape
  exact State.found_scheduleNext (s := { s with preemptions := s.preemptions + if preempts then 1 else 0 })
    hsh hkept (State.mem_enabledThreads.2 hid)

theorem finishes_schedule (hsh : sh.Loose o.program) (yields : Bool) :
    (schedule yields : Exec σ Unit).Finishes o False sh [.current] := by
  refine works_bind works_state ?_
  rintro s _ ⟨rfl, -, rfl⟩
  refine works_bind works_executor ?_
  rintro e _ ⟨-, -, rfl⟩
  have hswitch : ∀ {id : ThreadId}, id ∈ s.enabledThreads → ∀ preempts,
      (switchTo id preempts : Exec σ Unit).Finishes o False s.shape [.current] := fun hid preempts ↦
    finishes_switchTo hsh (State.mem_enabledThreads.1 hid) preempts
  dsimp only
  split
  · exact works_fail_bind rfl
  · rename_i hsome
    have hne : (s.enabledThreads.map fun _ ↦ Expr.bool true) ≠ [] := by simpa using hsome
    split
    · refine works_bind (works_branch hne) ?_
      rintro arms left ⟨hlength, hleft⟩
      rw [List.length_map] at hlength
      have hplaces : ((arms.zip s.enabledThreads).filterMap (·.1)).Perm left := by
        rw [filterMap_fst_zip hlength]
        exact hleft.symm
      refine works_bind ((finishes_forIn (fun q hq ↦ ?_) nofun).perm hplaces) fun _ _ h ↦ works_pure h
      exact hswitch (List.of_mem_zip hq).2 _
    · split
      · rename_i hgoes
        exact hswitch (by simpa using hgoes.1) _
      · split
        · exact works_fail rfl
        · rename_i id hid
          exact hswitch (State.mem_enabledThreads_of_nextThread hid) _

/-! ## Threads -/

variable {destination : Option Register}

theorem still_knownArgument (argument : Expr) (intrinsic : String) :
    (knownArgument argument intrinsic : Exec σ Nat).Still fun _ ↦ True := by
  refine still_bind (still_toUnique argument) fun value _ ↦ ?_
  split
  · exact still_pure trivial
  · exact still_fail rfl

theorem finishes_createThread (hp : o.program.isValid) (hsh : sh.Controlled o.program)
    (hr : sh.Accepts destination) (function argument : Expr) :
    (createThread function argument destination : Exec σ Unit).Finishes o fatal sh [.current] := by
  refine works_bind (still_knownArgument function _).works ?_
  rintro address _ ⟨-, rfl⟩
  refine works_bind works_executor ?_
  rintro e _ ⟨hprogram, -, rfl⟩
  rw [hprogram]
  dsimp only
  split
  · exact works_fail rfl
  · rename_i id hid
    refine works_bind (works_lift (Program.found_function (Program.lt_of_functionAt? hid))) ?_
    rintro callee _ ⟨hcallee, rfl⟩
    split
    · exact works_fail_bind rfl
    · rename_i hdefined
      have hdefined : callee.isExternal = false := by simpa using hdefined
      intro f g hg
      obtain ⟨rfl, hkept, -⟩ := hg.own_eq (by simp)
      obtain ⟨horder, hregisters⟩ := State.inOrder_createThread ⟨hsh, hkept⟩ hcallee
        (Program.isSome_instruction?_entry hp hcallee hdefined)
      have hend : ∀ s : State, s.id = g.state.id → s.shape =
          (g.state.createThread id callee.registers).2.shape → (do
            setState s
            writeResult destination (← Expr.constant g.state.nextThreadId 64) : Exec σ Unit).Found g
              (Ending o fatal g.state.shape (fun _ left ↦ left = []) f) := by
        intro s hsid hshape
        refine ends_bind_ok rfl (ends_lift_bind ((Expr.plain_constant _ _).ordinary.mono fun value _ ↦ ?_))
        rw [← hshape] at horder hregisters
        exact (finishes_writeResult horder.controlled (fun d hd ↦ hregisters d (hr d hd)) value).found
          (hg.turn (.of_state hsid) horder.kept horder.traceable)
      refine ends_bind_ok rfl ?_
      split
      · rename_i hparameters
        split
        · rename_i t ht
          have hlt := Nat.lt_of_lt_of_le hparameters (Program.parameters_le hp hcallee hdefined)
          refine ends_lift_bind ((State.found_firstArgument horder.controlled.nodup ht hlt argument).ordinary.mono ?_)
          exact fun t' ht' ↦ ends_bind_ok rfl (hend _ rfl ht')
        · exact ends_bind_ok rfl (hend _ rfl rfl)
      · exact ends_bind_ok rfl (hend _ rfl rfl)

theorem finishes_exitThread {P : ThreadShape → Prop} (hsh : sh.Threaded o.program P) :
    (exitThread : Exec σ Unit).Finishes o False sh [.current] := by
  refine finishes_updateState_bind (S := (·.Loose o.program)) (fun s n hshape hkept ↦ ?_) fun sh' hsh' ↦ ?_
  · subst hshape
    exact (State.found_exit hsh hkept).mono fun s' hs' ↦ ⟨hs'.1, hs'.2.1.traceable, hs'.2.2, hs'.2.1⟩
  · refine works_bind still_state.works ?_
    rintro s _ ⟨-, rfl⟩
    split
    · exact finishes_terminateWith _ _
    · exact finishes_schedule hsh' false

theorem finishes_sleep (hsh : sh.Controlled o.program) (list : Expr) :
    (sleep list : Exec σ Unit).Finishes o False sh [.current] := by
  refine works_bind (still_knownArgument list _).works ?_
  rintro list _ ⟨-, rfl⟩
  refine finishes_updateState_bind (S := (·.Loose o.program)) (fun s n hshape hkept ↦ ?_) fun sh' hsh' ↦
    finishes_schedule hsh' false
  subst hshape
  exact (State.found_sleep ⟨hsh, hkept⟩ list).mono fun s' hs' ↦ ⟨hs'.1, hs'.2.1.traceable, hs'.2.2, hs'.2.1⟩

theorem finishes_notify (hsh : sh.Controlled o.program) (list : Expr) (all : Bool) :
    (notify list all : Exec σ Unit).Finishes o fatal sh [.current] := by
  refine works_bind (still_knownArgument list _).works ?_
  rintro list _ ⟨-, rfl⟩
  split
  · refine finishes_updateState fun s n hshape hkept ↦ ?_
    subst hshape
    exact Checked.ends_pure ⟨rfl, State.inOrder_wake ⟨hsh, hkept⟩ _⟩
  · refine works_bind still_state.works ?_
    rintro s _ ⟨-, rfl⟩
    split
    · refine finishes_updateState fun s n hshape hkept ↦ ?_
      subst hshape
      exact Checked.ends_pure ⟨rfl, State.inOrder_wake ⟨hsh, hkept⟩ _⟩
    · exact (works_pure (Q := fun _ _ ↦ True) trivial).finishes hsh

/-! ## Calls -/

theorem still_hostArgument (name : String) (argument : Expr) :
    (hostArgument name argument : Exec σ Nat).Still fun _ ↦ True := by
  refine still_bind (still_toUnique argument) fun value _ ↦ ?_
  split
  · exact still_pure trivial
  · refine still_bind still_executor fun e _ ↦ ?_
    split
    · exact still_bind (still_toConstant value) fun _ _ ↦ still_pure trivial
    · exact still_fail rfl

theorem finishes_callHost (hsh : sh.Controlled o.program) (hr : sh.Accepts destination) (name : String)
    (resultWidth : Option Nat) (arguments : List Expr) :
    (callHost name resultWidth arguments destination : Exec σ Unit).Finishes o fatal sh [.current] := by
  refine works_bind works_executor ?_
  rintro e _ ⟨-, -, rfl⟩
  dsimp only
  split
  · refine works_bind (still_mapM fun argument _ ↦ still_hostArgument name argument).works ?_
    rintro values _ ⟨-, rfl⟩
    refine works_bind still_state.works ?_
    rintro s _ ⟨-, rfl⟩
    refine works_bind works_executor ?_
    rintro e _ ⟨-, -, rfl⟩
    refine works_bind (still_modifyExecutor fun _ ↦ .of_executor rfl rfl rfl rfl rfl rfl rfl rfl).works ?_
    rintro _ _ ⟨-, rfl⟩
    split
    · exact works_fail rfl
    · refine works_bind works_state ?_
      rintro s _ ⟨rfl, ⟨n, hkept⟩, rfl⟩
      refine works_bind (works_lift (AddressSpace.found_copyIn hkept _)) ?_
      rintro ⟨done, memory⟩ _ ⟨hmemory, rfl⟩
      dsimp only at hmemory ⊢
      split
      · refine finishes_updateState_bind (S := (· = s.shape)) (fun s' n hshape hkept ↦ ?_) ?_
        · have hsame : State.shape { s' with memory } = s.shape := by
            rw [← hshape, State.shape, hmemory, show s.memory.outline = s'.memory.outline from
              congrArg Shape.objects hshape.symm]
            rfl
          refine Checked.ends_pure ⟨rfl, ?_, ?_, hsame⟩
          · rw [hsame]
            exact hsh.loose.traceable
          · rw [hsame]
            exact hkept
        · rintro _ rfl
          split
          · exact (works_pure (Q := fun _ _ ↦ True) trivial).finishes hsh
          · exact works_fail rfl
          · rename_i r width
            refine works_bind (works_lift (Expr.plain_constant _ _)) ?_
            rintro value _ ⟨-, rfl⟩
            exact finishes_write hsh (hr r rfl) value
      · exact works_fail_bind rfl
  · exact works_fail_bind rfl

theorem found_storeVarargs (hg : Stand o sh [.current] f g) (arguments : List Expr) :
    (storeVarargs arguments : Exec σ MemoryObject).Found g fun r h ↦
      match r with
      | .ok object => ∃ k objects pool, Stand o { sh with pool } [.current] f k ∧ k.Alone h ∧
          h.state.shape = { sh with objects, pool } ∧ Owned o.program h.bound (object :: sh.held) objects pool ∧
          AddressSpace.Ascending objects
      | .error e => Fails o fatal e f h := by
  refine ends_bind_ok rfl ?_
  dsimp only
  split
  · exact works_fail (Q := fun _ _ ↦ False) rfl f g hg |>.mono fun r h hr ↦ by
      cases r with
      | ok _ =>
        obtain ⟨_, hfalse, -⟩ := hr
        exact hfalse.elim
      | error e => exact hr
  · rename_i object allocator pool hnew
    obtain ⟨hg₁, hid, hlocal, hfits⟩ := hg.reserve hnew
    refine ends_bind_ok rfl
      (ends_lift_bind ((ObjectState.found_zeroed object).ordinary.mono fun contents hcontents ↦ ?_))
    refine Still.found_bind (still_foldlM (T := fun c : ObjectState ↦ c.object = object) hcontents
      fun q _ c hc ↦ ?_) hg₁ (fun contents g₂ hcontents hstill ↦ ?_) fun _ _ he ↦ he
    · refine still_bind (still_lift (Expr.plain_mkZext q.1 64)) fun e _ ↦ ?_
      exact (still_lift (c.found_write _ _)).mono fun _ h ↦ h.trans hc
    · subst hcontents
      have hg₂ := hg₁.rests hstill.toRests
      obtain ⟨hshape, hkept, -⟩ := hg₂.own_eq (by simp)
      have hlt : contents.object.id < g₂.bound := Nat.lt_of_lt_of_le hid hstill.bound_le
      have hfits₂ : contents.object.Fits o.program g₂.state.shape.objects g₂.state.shape.pool := by
        rw [hshape]
        exact hfits
      have hpool : g₂.state.pool = pool := congrArg Shape.pool hshape
      rw [← hshape] at hkept
      refine ends_updateState_bind (Checked.ends_bind (State.found_bind hkept hfits₂ hlt).ordinary fun m hm ↦
        Checked.ends_pure (ends_pure ⟨g₂, m.outline, pool, hg₂, .of_state rfl, ?_, ?_, hm.1⟩))
      · change { g₂.state.shape with objects := m.outline } = _
        rw [hshape]
      · have howned := hm.2
        rw [if_pos hlocal, hpool, hshape] at howned
        exact howned

section

variable {callee : Callee} {operands : List Operand} (hp : o.program.isValid)
  (hsh : sh.Midway o.program o.location)
  (hcall : o.program.instruction? o.location = some (.call callee operands destination))

include hp hcall

theorem returns_of_call {top : FrameShape} (htop : top.function = o.location.function)
    (hsized : top.Sized o.program) : CallSite.Returns o.program ⟨o.location, destination⟩ top := by
  obtain ⟨function, hfunction, hnames⟩ := Program.exists_names hp hcall
  refine ⟨htop.symm, ⟨callee, operands, hcall⟩, Program.isSome_instruction?_next hp hcall rfl, fun d hd ↦ ?_⟩
  obtain ⟨function', hfunction', hregisters⟩ := hsized
  rw [htop, hfunction] at hfunction'
  obtain rfl := Option.some.inj hfunction'
  exact hregisters ▸ hnames.destination d hd

include hsh

theorem controlled_of_call : sh.Controlled o.program :=
  hsh.controlled (Program.isSome_instruction?_next hp hcall rfl)

theorem accepts_of_call : sh.Accepts destination := fun _ hd ↦ hsh.hasRegister hp hcall hd

theorem finishes_enter {id : FunctionId} {function : Function}
    (hfunction : o.program.functions[id]? = some function) (hdefined : function.isExternal = false)
    (arguments : List Expr) :
    (enter id function arguments destination : Exec σ Unit).Finishes o fatal sh [.current] := by
  have hlength : (arguments.take function.parameters).length ≤ function.registers := by
    rw [List.length_take]
    exact Nat.le_trans (Nat.min_le_left _ _) (Program.parameters_le hp hfunction hdefined)
  have hentry := Program.isSome_instruction?_entry hp hfunction hdefined
  -- the frame is pushed onto the stack as it was before the call
  have hpush : ∀ {f k h : Focus σ} {sh' : Shape} {varargs : Option MemoryObject},
      Stand o sh' [.current] f k → k.Alone h → h.state.shape.Midway o.program o.location →
      Owned o.program h.bound (varargs.toList ++ h.state.shape.held) h.state.shape.objects
        h.state.shape.pool → AddressSpace.Ascending h.state.shape.objects → (do
          let caller : CallSite := ⟨(← executor).location, destination⟩
          updateState fun s ↦ do
            let s ← s.pushFrame (some caller) id function.registers
            let s ← (arguments.take function.parameters).zipIdx.foldlM
              (fun s q ↦ s.write q.2 q.1) s
            let s ← s.modifyFrame fun f ↦ return { f with varargs }
            s.modifyThread fun t ↦ return { t with pc := .entry id, incoming := none } :
              Exec σ Unit).Found h (Ending o fatal sh (fun _ left ↦ left = []) f) := by
    intro f k h sh' varargs hk halone hmidway howned hascending
    refine ends_bind_ok rfl ?_
    have hlocation : h.executor.location = o.location := halone.location_eq.trans hk.reaches.location_eq
    rw [hlocation]
    refine ends_updateState ((State.found_enter hmidway howned hascending hfunction hentry hlength
      fun top htop hsized ↦ returns_of_call hp hcall htop hsized).ordinary.mono fun s hs ↦ ⟨[], rfl, ?_⟩)
    exact hk.finish (halone.trans (.of_state hs.1)) (fun _ ↦ hs.2) sh
  unfold enter
  dsimp only
  split
  · exact works_fail_bind rfl
  · intro f g hg
    split
    · rw [map_eq_pure_bind, bind_assoc]
      refine ends_bind (found_storeVarargs hg _) (fun object h hh ↦ ends_bind_ok rfl ?_) fun _ _ he ↦ he
      obtain ⟨k, objects, pool, hk, halone, hshape, howned, hascending⟩ := hh
      refine hpush hk halone ?_ ?_ ?_
      · rw [hshape]
        exact ⟨hsh.nodup, hsh.id_lt, hsh.others, hsh.current⟩
      · rw [hshape]
        exact howned
      · rw [hshape]
        exact hascending
    · obtain ⟨rfl, hkept, -⟩ := hg.own_eq (by simp)
      exact ends_bind_ok rfl (hpush hg (Focus.Still.refl g).toAlone hsh hkept.owned hkept.ascending)

theorem finishes_call {id : FunctionId} (hid : id < o.program.functions.size) (arguments : List Expr) :
    (call id arguments destination : Exec σ Unit).Finishes o fatal sh [.current] := by
  refine works_bind works_executor ?_
  rintro e _ ⟨hprogram, -, rfl⟩
  rw [hprogram]
  refine works_bind (works_lift (Program.found_function hid)) ?_
  rintro function _ ⟨hfunction, rfl⟩
  split
  · exact finishes_callHost (controlled_of_call hp hsh hcall) (accepts_of_call hp hsh hcall) _ _ _
  · rename_i blocks hbody
    refine finishes_enter hp hsh hcall hfunction ?_ arguments
    rw [Function.isExternal, hbody]

theorem finishes_callAddress (address : Nat) (arguments : List Expr) :
    (callAddress address arguments destination : Exec σ Unit).Finishes o fatal sh [.current] := by
  refine works_bind works_executor ?_
  rintro e _ ⟨hprogram, -, rfl⟩
  rw [hprogram]
  split
  · exact works_fail rfl
  · rename_i id hid
    exact finishes_call hp hsh hcall (Program.lt_of_functionAt? hid) arguments

theorem finishes_callEach (pointer : Expr) (arguments : List Expr) (fuel resolved : Nat)
    (remaining : Option Branch) :
    (callEach pointer arguments destination fuel resolved remaining : Exec σ Unit).Finishes o False sh
      remaining.toList := by
  induction fuel generalizing resolved remaining with
  | zero =>
    cases remaining with
    | none => exact works_pure rfl
    | some branch =>
      have hthrow : Checked.Found (throw .exhausted : Checked Unit) fun _ ↦ False :=
        Checked.ends_throw (by decide)
      exact (works_lift hthrow).mono id fun _ _ h ↦ h.1.elim
  | succ fuel ih =>
    cases remaining with
    | none => exact works_pure rfl
    | some branch =>
      refine works_bind works_executor ?_
      rintro e _ ⟨-, -, rfl⟩
      dsimp only
      split
      · exact finishes_onSide (finishes_terminateWith _ _) nofun
      · refine works_bind (works_onBranch
          (still_query fun c ↦ Solver.looks_value c pointer).works nofun) ?_
        rintro r left (⟨rfl, rfl⟩ | ⟨value, _, rfl, ⟨-, rfl⟩, rfl⟩)
        · exact works_pure rfl
        · refine works_bind (works_lift (Expr.plain_mkEq pointer value)) ?_
          rintro same _ ⟨-, rfl⟩
          refine works_bind (works_forkOn same) ?_
          rintro ⟨here, rest⟩ left hleft
          obtain rfl : left = here.toList ++ rest.toList := hleft.trans (List.append_nil _)
          refine works_bind (works_onSide (finishes_callAddress hp hsh hcall _ arguments) nofun) ?_
          rintro _ _ rfl
          exact ih (resolved + 1) rest

end

/-! ## Returns -/

theorem finishes_ret (hsh : sh.Midway o.program o.location) (value : Option Expr) :
    (ret value : Exec σ Unit).Finishes o False sh [.current] := by
  obtain ⟨t, ht, hid, hmidway⟩ := hsh.current
  obtain ⟨top, rest, hstack, -, -⟩ := hmidway.inside
  refine works_bind works_state ?_
  rintro s _ ⟨rfl, -, rfl⟩
  refine works_bind (works_lift (State.found_frame hsh.nodup ⟨ht, hid⟩ hstack)) ?_
  rintro frame _ ⟨hframe, rfl⟩
  split
  · split
    · exact finishes_terminateWith _ _
    · exact finishes_exitThread hsh
  · rename_i site hsite
    have hcaller : top.caller = some site := by
      rw [← hframe]
      exact hsite
    refine finishes_updateState_bind (S := fun sh' ↦ sh'.Controlled o.program ∧
      sh'.Accepts site.destination) (fun s' n hshape hkept ↦ ?_) fun sh' hsh' ↦ ?_
    · rw [← hshape] at hsh hkept ht hid
      refine (State.found_return hsh hkept ⟨ht, hid⟩ hstack hcaller).mono ?_
      rintro s'' ⟨hid', horder, hregisters⟩
      exact ⟨hid', horder.traceable, horder.kept, horder.controlled, hregisters⟩
    · split
      · exact (works_pure (Q := fun _ _ ↦ True) trivial).finishes hsh'.1
      · exact works_fail rfl
      · rename_i r value hdestination
        exact finishes_write hsh'.1 (hsh'.2 r hdestination) value

end Exec

end Symex
