import Symex.Proofs.Lineage.Divisions
import Symex.Proofs.Lineage.Runs

namespace Symex

open Checked

variable {σ α : Type} {I : Trust} {A : Assignment → Prop}

theorem AddressSpace.WellFormed.bound_of_bind {m : AddressSpace} {x : ObjectState} (hm : m.WellFormed) :
    Ends (fun _ ↦ True) (m.bind x) fun m' ↦ ∃ y ∈ m'.toList, y.object = x.object := by
  refine ends_bind (P := fun _ ↦ True) (Checked.ends_any _) fun _ _ ↦ ends_pure ⟨{ x with owner := m.epoch }, ?_, rfl⟩
  refine List.mem_map.2 ⟨(x.object.key, { x with owner := m.epoch }), ?_, rfl⟩
  change _ ∈ (m.objects.insert x.object.key _).2.toList
  rw [AvlMap.toList_insert hm.sorted]
  exact List.mem_append_right _ List.mem_cons_self

namespace State

variable {s s' : State} {r : Register} {v : Expr} {destination : Option Register} {size : Nat}

theorem register?_write (h : s.write r v = .ok s') : s'.register? r = some v := by
  obtain ⟨t, ht, h⟩ := bind_eq_ok.1 h
  obtain ⟨u, hu, h⟩ := bind_eq_ok.1 h
  obtain rfl : s.setThread u = s' := pure_eq_ok.1 h
  have ht : s.thread? s.current = some t := ofOption_eq_ok.1 ht
  have hid : t.id = s.current := by simpa using List.find?_some ht
  have hu : t.modifyFrame (·.write r v) = .ok u := hu
  unfold Thread.modifyFrame at hu
  split at hu
  · cases hu
  · rename_i top rest hstack
    obtain ⟨top', htop, hu⟩ := bind_eq_ok.1 hu
    obtain rfl := pure_eq_ok.1 hu
    obtain ⟨_, hr, htop⟩ := bind_eq_ok.1 htop
    obtain rfl := pure_eq_ok.1 htop
    have hr : r < top.locals.size := demand_eq_ok.1 hr
    generalize hu : ({ t with stack := _ } : Thread) = u
    have huid : u.id = s.current := by rw [← hu, ← hid]
    have hthread : (s.setThread u).thread? s.current = some u :=
      huid ▸ thread?_setThread (t := u) (by rw [huid, ht]; rfl)
    change (((s.setThread u).thread? s.current).bind fun t ↦ t.stack.head?.bind fun f ↦ f.read? r) = some v
    rw [hthread, ← hu]
    simp [Frame.read?, hr]

/-- A register for a result has null, or the address of an object of `size` bytes. -/
def HasBlock (destination : Option Register) (size : Nat) (s : State) : Prop :=
  ∀ r ∈ destination, s.register? r = some (.pointer 0) ∨
    ∃ x ∈ s.memory.toList, s.register? r = some x.object.base ∧ x.object.size = size

/-- Whatever the inputs are, a register for a result has null, or the address of an object of the size that is
asked for. -/
def Granted (I : Trust) (destination : Option Register) (request : Assignment → Nat) (s : State) : Prop :=
  s.Within I fun a ↦ s.HasBlock destination (request a % wordLimit)

theorem HasBlock.granted {request : Assignment → Nat} (h : s.HasBlock destination size) (hs : s.Within I A)
    (hsize : ∀ a : Assignment, a.free → A a → request a % wordLimit = size) :
    s.Granted I destination request := by
  intro a ha
  rw [hsize a ha.free (hs a ha)]
  exact h

end State

namespace Exec

variable {focus : Focus σ} {destination : Option Register} {size : Nat} {request : Assignment → Nat}

/-! ## Objects of a known size -/

theorem total_writeResult (r : Option Register) (value : Expr) : (writeResult r value : Exec σ Unit).Total := by
  cases r with
  | none => exact total_pure _
  | some r => exact total_updateState _

theorem ends_writeResult (r : Option Register) (value : Expr) :
    (writeResult r value : Exec σ Unit).Ends (fun _ ↦ True) focus fun _ f ↦
      f.state.memory = focus.state.memory ∧ ∀ r' ∈ r, f.state.register? r' = some value := by
  cases r with
  | none => exact ends_pure ⟨rfl, nofun⟩
  | some r =>
    refine ends_updateState (ends_true_iff.2 fun s hs ↦ ⟨State.memory_of_write hs, ?_⟩)
    rintro _ ⟨⟩
    exact State.register?_write hs

theorem brings_null : (writeResult destination (.pointer 0) : Exec σ Unit).Brings I A
    (State.Granted I destination request) :=
  brings_of_stays (keeps_writeResult _ (Expr.pointer_wellFormed 0)) (stays_writeResult _ _)
    (total_writeResult _ _).concerns fun _ _ ↦ (ends_writeResult _ _).mono fun _ _ h _ _ _ _ _ r hr ↦
      .inl (h.2 r hr)

theorem keepsAt_bindNew {contents : ObjectState} {isLocal : Bool} (hf : focus.Sound I)
    (hcontents : contents.WellFormed) (hsize : contents.object.size = size) : (do
      if isLocal then updateState (·.bindLocal contents)
      else updateState fun s ↦ return { s with memory := ← s.memory.bind contents }
      writeResult destination contents.object.base : Exec σ Unit).KeepsAt I focus fun _ f ↦
        f.state.HasBlock destination size := by
  have hresult (f : Focus σ) (hf : f.Sound I) (hbound : ∃ x ∈ f.state.memory.toList, x.object = contents.object) :
      (writeResult destination contents.object.base : Exec σ Unit).KeepsAt I f fun _ f' ↦
        f'.state.HasBlock destination size := by
    obtain ⟨x, hx, hobject⟩ := hbound
    rw [← hobject] at hsize ⊢
    refine (Ends.and (keeps_writeResult _ (Expr.pointer_wellFormed _) f hf) (ends_writeResult _ _)).mono
      fun _ _ h ↦ ⟨h.1.1, fun _ _ r hr ↦ .inr ⟨x, h.2.1 ▸ hx, h.2.2 r hr, hsize⟩⟩
  have hbound := ends_true_iff.1 (hf.state.memory.bound_of_bind (x := contents))
  cases isLocal with
  | true =>
    refine keepsAt_bind (Q := fun _ f ↦ ∃ x ∈ f.state.memory.toList, x.object = contents.object)
      (keepsAt_updateState hf (hf.state.safe_bindLocal hcontents) fun s hs ↦ ?_) fun _ f hf h ↦ hresult f hf h
    obtain ⟨m, hm, hs⟩ := bind_eq_ok.1 hs
    rw [State.memory_of_modifyFrame hs]
    exact hbound m hm
  | false =>
    refine keepsAt_bind (Q := fun _ f ↦ ∃ x ∈ f.state.memory.toList, x.object = contents.object)
      (keepsAt_updateState hf (Checked.ends_bind (hf.state.safe_bind hcontents) fun _ h ↦ Checked.ends_pure h)
        fun s hs ↦ ?_) fun _ f hf h ↦ hresult f hf h
    obtain ⟨m, hm, hs⟩ := bind_eq_ok.1 hs
    obtain rfl := pure_eq_ok.1 hs
    exact hbound m hm

theorem keepsAt_allocate_block (hf : focus.Sound I) (size : Nat) (isLocal : Bool) (destination : Option Register)
    (replaced : Option MemoryObject) :
    (allocate size isLocal destination replaced : Exec σ Unit).KeepsAt I focus fun _ f ↦
      f.state.HasBlock destination size :=
  keepsAt_allocate hf size isLocal destination replaced (fun f hf ↦
    (Ends.and (keeps_writeResult _ (Expr.pointer_wellFormed _) f hf) (ends_writeResult _ _)).mono
      fun _ _ h ↦ ⟨h.1.1, fun _ _ r hr ↦ .inl (h.2.2 r hr)⟩) fun _ _ hf hc hsize ↦ keepsAt_bindNew hf hc hsize

theorem total_reserve (size : Nat) (isLocal : Bool) (site : AllocationSite) (name : String) :
    (reserve size isLocal site name : Exec σ _).Total := by
  refine fun focus ↦ ends_bind_ok rfl ?_
  split
  · exact yields_pure trivial
  · exact ends_bind_ok rfl (yields_pure trivial)

theorem total_allocate (size : Nat) (isLocal : Bool) (destination : Option Register)
    (replaced : Option MemoryObject) : (allocate size isLocal destination replaced : Exec σ Unit).Total := by
  refine total_bind total_executor fun _ ↦ total_bind (total_reserve _ _ _ _) fun o ↦ ?_
  cases o with
  | none => exact total_writeResult _ _
  | some object =>
    have hbind (contents : ObjectState) : (do
        if isLocal then updateState (·.bindLocal contents)
        else updateState fun s ↦ return { s with memory := ← s.memory.bind contents }
        writeResult destination object.base : Exec σ Unit).Total := by
      split <;> exact total_bind (total_updateState _) fun _ ↦ total_writeResult _ _
    refine total_bind (total_lift _) fun contents ↦ ?_
    cases replaced with
    | none => exact hbind contents
    | some old =>
      have hrest (contents : ObjectState) : (do
          updateState (·.unbindAll [old])
          if isLocal then updateState (·.bindLocal contents)
          else updateState fun s ↦ return { s with memory := ← s.memory.bind contents }
          writeResult destination object.base : Exec σ Unit).Total :=
        total_bind (total_updateState _) fun _ ↦ hbind contents
      refine total_bind total_state fun s ↦ ?_
      dsimp only
      split
      · exact total_bind (total_lift _) hrest
      · exact hrest contents

theorem brings_allocate (isLocal : Bool) (destination : Option Register) (replaced : Option MemoryObject)
    (hsize : ∀ a : Assignment, a.free → A a → request a % wordLimit = size) :
    (allocate size isLocal destination replaced : Exec σ Unit).Brings I A
      (State.Granted I destination request) :=
  brings_of_stays (keeps_allocate _ _ _ _) (stays_allocate _ _ _ _) (total_allocate _ _ _ _).concerns
    fun _ hf ↦ (keepsAt_allocate_block hf.sound size isLocal destination replaced).weaken (fun _ _ ↦ trivial) |>.mono
      fun _ _ h hr _ hwithin ↦ (h.2 () hr).granted hwithin hsize

/-! ## Sizes -/

section

variable {size pointer : Expr}

theorem total_toUnique (e : Expr) : (toUnique e : Exec σ Expr).Total := by
  unfold toUnique
  split
  · exact total_pure _
  · refine total_bind (total_ask _) fun r ↦ ?_
    split
    · exact total_pure _
    · refine total_bind (total_lift _) fun _ ↦ total_bind (total_ask _) fun r ↦ ?_
      split <;> exact total_pure _

theorem concerns_shrink (size : Expr) (example_ : Nat) : (shrink size example_ : Exec σ Nat).Concerns := by
  induction example_ using Nat.strongRecOn with
  | ind n ih =>
    rw [shrink]
    split
    · rename_i hlt
      refine concerns_bind (total_lift _).concerns fun _ ↦ concerns_bind (total_lift _).concerns fun _ ↦
        concerns_bind (concerns_query _) fun b ↦ ?_
      split
      · exact ih _ (Nat.div_lt_self (Nat.zero_lt_of_lt hlt) (by decide))
      · exact (total_pure _).concerns
    · exact (total_pure _).concerns

theorem keeps_example (hright : I.right) (hsize : size.WellFormed) :
    (query (Solver.value · size) : Exec σ Expr).Keeps I fun v ↦ (v.WellFormed ∧ v.width = size.width) ∧
      ∃ n < 2 ^ size.width, v.value? = some n := fun _ hf ↦
  (keepsAt_value hsize hf).mono fun _ _ h ↦ by
    obtain ⟨n, hn, a, ha, hattained⟩ := (h.2.2 hright).exists_value
    exact ⟨h.1, n, hattained ▸ a.val_lt ha.free hsize, hn⟩

theorem brings_allocateRest (hright : I.right) (hsize : size.WellFormed) (isLocal : Bool)
    (destination : Option Register) (replaced : Option MemoryObject)
    (hrequest : ∀ a : Assignment, a.free → A a → request a % wordLimit = a.val size) :
    (allocateRest size isLocal destination replaced : Exec σ Unit).Brings I A
      (State.Granted I destination request) := by
  refine brings_bind (keeps_example hright hsize) (stays_query _) (concerns_query _) fun value hvalue ↦ ?_
  obtain ⟨hvalue, n, -, hn⟩ := hvalue
  refine brings_lift_bind (Expr.safe_mkEq hvalue.1 hsize) fun same hsame ↦ ?_
  refine brings_bind_within (B := fun must a ↦ must = true → a.val value = a.val size) (keeps_mustBeTrue hsame.1)
    (stays_query _) (concerns_query _) (fun focus hf ↦ ?_) fun must _ ↦ ?_
  · refine (keepsAt_query (fun hright ↦ Solver.answers_mustBeTrue hf.sound.state.valid
      (hf.sound.state.satisfiable hright) hsame.1.1) hf.sound).mono fun must f h a ha hmust ↦ ?_
    exact (hsame.2 a ha.free).1 ((h.2 hright).1 hmust a (h.1 ▸ ha))
  · cases must with
    | true =>
      refine brings_allocate _ _ _ fun a ha hA ↦ ?_
      rw [hrequest a ha hA.1, ← hA.2 rfl, a.val_of_value? hn, hn]
      rfl
    | false =>
      refine brings_lift_bind (Expr.safe_constant _ _) fun limit hlimit ↦ ?_
      refine brings_lift_bind (Expr.safe_mkCompare .ult hlimit.1 hsize) fun huge hhuge ↦ ?_
      refine brings_fork hright hhuge (handles_onSide brings_null) (handles_onSide (brings_of_quits ?_ ?_ ?_))
      · exact keeps_bind keeps_executor fun _ _ ↦ keeps_terminateOnError _ _
      · exact stays_bind stays_executor fun _ ↦ stays_terminateOnError _ _
      · exact quits_bind total_executor fun _ ↦ quits_terminateOnError _ _

theorem safe_zeroExtend (hsize : size.WellFormed) : Safe (Expr.mkZext size 64) fun e ↦
    (e.WellFormed ∧ e.width = 64) ∧ ∀ a : Assignment, a.free → a.val e = a.val size % wordLimit :=
  Checked.Ends.and (Expr.safe_mkZext 64 hsize) (ends_true_iff.2 fun _ h _ ha ↦ Expr.val_mkZext ha hsize h)

theorem safe_constant_lt {n w : Nat} (hn : n < 2 ^ w) : Safe (Expr.constant n w) fun e ↦
    (e.WellFormed ∧ e.width = w) ∧ ∀ a : Assignment, a.val e = n := by
  refine Checked.Ends.and (Expr.safe_constant n w) (ends_true_iff.2 fun e he a ↦ ?_)
  obtain ⟨_, -, he⟩ := bind_eq_ok.1 he
  obtain rfl := pure_eq_ok.1 he
  rw [Assignment.val_word, Nat.mod_eq_of_lt hn]

theorem brings_allocateSized (hright : I.right) (hsize : size.WellFormed) (isLocal : Bool)
    (destination : Option Register) (replaced : Option MemoryObject)
    (hrequest : ∀ a : Assignment, a.free → A a → request a % wordLimit = a.val size % wordLimit) :
    (allocateSized size isLocal destination replaced : Exec σ Unit).Brings I A
      (State.Granted I destination request) := by
  refine brings_lift_bind (safe_zeroExtend hsize) fun extended h ↦ ?_
  obtain ⟨hextended, hval⟩ := h
  refine brings_bind_within (B := fun v a ↦ a.val v = a.val extended) (keeps_toUnique hextended.1) (stays_toUnique _)
    (total_toUnique _).concerns (fun focus hf ↦ ?_) fun size hsize ↦ ?_
  · exact (keepsAt_toUnique hextended.1 hf.sound).mono fun v f h a ha ↦ h.2.2 hright a (h.2.1 ▸ ha)
  have hrequest (a : Assignment) (ha : a.free) (hA : A a ∧ a.val size = a.val extended) :
      request a % wordLimit = a.val size := by rw [hrequest a ha hA.1, hA.2, hval a ha]
  split
  · rename_i n hn
    exact brings_allocate _ _ _ fun a ha hA ↦ (hrequest a ha hA).trans (a.val_of_value? hn)
  · refine brings_bind (keeps_example hright hsize.1) (stays_query _) (concerns_query _) fun value hvalue ↦ ?_
    obtain ⟨-, n, hlt, hn⟩ := hvalue
    refine brings_bind (keeps_shrink hsize.1 _) (stays_shrink _ _) (concerns_shrink _ _) fun m hm ↦ ?_
    have hm : m < 2 ^ size.width := Nat.lt_of_le_of_lt hm (by rwa [hn])
    refine brings_lift_bind (safe_constant_lt hm) fun fixed h ↦ ?_
    obtain ⟨hfixed, hvalue⟩ := h
    refine brings_lift_bind (Expr.safe_mkEq hfixed.1 hsize.1) fun same h ↦ ?_
    obtain ⟨hsame, hiff⟩ := h
    refine brings_fork hright hsame (handles_onSide (brings_allocate _ _ _ fun a ha hA ↦ ?_))
      (handles_onSide (brings_allocateRest hright hsize.1 _ _ _ fun a ha hA ↦ hrequest a ha hA.1))
    rw [hrequest a ha hA.1, ← (hiff a ha).1 hA.2, hvalue a]

/-! ## Objects that are given back -/

theorem concerns_demandHeap (object : MemoryObject) : (demandHeap object : Exec σ Unit).Concerns := by
  have hglobal : (if object.isGlobal then fail .freeOfGlobal else pure () : Exec σ Unit).Concerns := by
    split
    · exact concerns_fail rfl
    · exact (total_pure _).concerns
  unfold demandHeap
  dsimp only
  split
  · exact concerns_bind (concerns_fail rfl) fun _ ↦ hglobal
  · exact hglobal

theorem brings_free (hright : I.right) (hpointer : pointer.WellFormed) :
    (free pointer destination : Exec σ Unit).Brings I A (State.Granted I destination request) := by
  refine brings_fork hright hpointer.isZero (handles_onSide brings_null)
    (handles_onObjects hright hpointer _ fun object ↦ ?_)
  refine brings_bind (keeps_demandHeap object) (stays_demandHeap object) (concerns_demandHeap object) fun _ _ ↦ ?_
  exact brings_bind (keeps_unbindAll _) (stays_updateState fun s ↦ s.alike_unbindAll _)
    (total_updateState _).concerns fun _ _ ↦ brings_null

theorem brings_reallocate (hright : I.right) (hpointer : pointer.WellFormed) (hsize : size.WellFormed)
    (destination : Option Register)
    (hrequest : ∀ a : Assignment, a.free → A a → request a % wordLimit = a.val size % wordLimit) :
    (reallocate pointer size destination : Exec σ Unit).Brings I A (State.Granted I destination request) := by
  refine brings_lift_bind (safe_zeroExtend hsize) fun extended h ↦ ?_
  obtain ⟨hextended, hval⟩ := h
  have hsized {A' : Assignment → Prop} (replaced : Option MemoryObject) (hA : ∀ a, A' a → A a) :
      (allocateSized extended false destination replaced : Exec σ Unit).Brings I A'
        (State.Granted I destination request) :=
    brings_allocateSized hright hextended.1 _ _ _ fun a ha hA' ↦ by
      rw [hrequest a ha (hA a hA'), hval a ha, Nat.mod_mod]
  refine brings_fork hright hextended.1.isZero (handles_onSide (brings_free hright hpointer)) (handles_onSide ?_)
  refine brings_fork hright hpointer.isZero (handles_onSide (hsized none fun _ h ↦ h.1.1))
    (handles_onObjects hright hpointer _ fun object ↦ ?_)
  exact brings_bind (keeps_demandHeap object) (stays_demandHeap object) (concerns_demandHeap object)
    fun _ _ ↦ hsized (some object) fun _ h ↦ h.1.1

end

end Exec

/-! ## Requests -/

/-- What an instruction asks for: the register that gets the address, and the numbers whose product is the
number of bytes. -/
structure Request where
  destination : Option Register
  factors : List Expr

def Request.bytes (q : Request) (a : Assignment) : Nat := (q.factors.map a.val).prod

@[simp] theorem Request.bytes_one (destination : Option Register) (e : Expr) (a : Assignment) :
    bytes ⟨destination, [e]⟩ a = a.val e := by simp [bytes]

@[simp] theorem Request.bytes_two (destination : Option Register) (l r : Expr) (a : Assignment) :
    bytes ⟨destination, [l, r]⟩ a = a.val l * a.val r := by simp [bytes]

def Instruction.request? (value? : Operand → Option Expr) : Instruction → Option Request
  | .call (.intrinsic .malloc) [size] destination => do
    let size ← value? size
    return ⟨destination, [size]⟩
  | .call (.intrinsic .calloc) [count, size] destination => do
    let count ← value? count
    let size ← value? size
    return ⟨destination, [count, size]⟩
  | .call (.intrinsic .realloc) [_, size] destination => do
    let size ← value? size
    return ⟨destination, [size]⟩
  | .alloca elementSize count destination => do
    let count ← value? count
    return ⟨some destination, [.const elementSize 64, count]⟩
  | _ => none

/-- What the next instruction of the state asks for. -/
def State.request? (s : State) (program : Program) (constants : Array Expr) : Option Request := do
  let t ← s.thread? s.current
  let i ← program.instruction? t.pc
  i.request? (s.operand? constants)

namespace Exec

variable {focus : Focus σ} {q : Request} {i : Instruction}

theorem concerns_operand (o : Operand) : (operand o : Exec σ Expr).Concerns := by
  refine concerns_bind total_executor.concerns fun e ↦ ?_
  cases o with
  | register r =>
    refine concerns_bind total_state.concerns fun s ↦ concerns_bind (total_lift _).concerns fun top _ ↦
      ends_ofExcept ?_
    unfold Frame.read
    split
    · rintro _ ⟨⟩
    · rintro _ ⟨⟩
      rfl
  | constant c =>
    dsimp only
    split
    · exact (total_pure _).concerns
    · exact (total_lift _).concerns

theorem divides_operand {o : Operand} {k : Expr → Exec σ β} {V : β → Focus σ → Prop}
    {R : β → Branch → State → Prop} (hf : focus.Sound I)
    (hk : ∀ v, focus.state.operand? focus.executor.constants o = some v → v.WellFormed →
      (k v).Divides I focus V R) : (operand o >>= k).Divides I focus V R := by
  refine ends_bind ((ends_operand o).and ((keeps_operand o focus hf).and (concerns_operand o focus))) ?_ ?_
  · rintro v _ ⟨⟨rfl, hv⟩, ⟨-, hwf⟩, -⟩
    exact hk v hv (hwf v rfl)
  · rintro e _ ⟨⟨rfl, -⟩, -, he⟩
    exact ⟨he e rfl, .refl I _⟩

theorem safe_product {l r : Expr} (hl : l.WellFormed) (hr : r.WellFormed) (hwl : l.width = 64) :
    Safe (Expr.mkMul l r) fun e ↦ e.WellFormed ∧
      ∀ a : Assignment, a.free → a.val e % wordLimit = a.val l * a.val r % wordLimit := by
  refine Checked.Ends.and ((Expr.safe_mkBinary .mul hl hr).mono fun _ h ↦ h.1) (ends_true_iff.2 fun e he a ha ↦ ?_)
  rw [Expr.val_mkBinary ha hl hr he, BinOp.fold, hwl, Bits.trunc_eq_mod, Bits.trunc_eq_mod, Bits.trunc_eq_mod]
  change a.val l % wordLimit * (a.val r % wordLimit) % wordLimit % wordLimit = _
  rw [Nat.mod_mod, ← Nat.mul_mod]

theorem divides_instruction_request (hright : I.right) (hf : focus.Meets I fun _ ↦ True)
    (hrequest : i.request? (focus.state.operand? focus.executor.constants) = some q) :
    (instruction i).Divides I focus (fun _ _ ↦ True) fun _ _ s ↦ s.Granted I q.destination q.bytes := by
  suffices h : (instruction i).Divides I focus (fun _ _ ↦ True) fun _ _ s ↦
      s.Within I (fun _ ↦ True) ∧ s.Granted I q.destination q.bytes from
    h.mono fun r f h ↦ by
      cases r with
      | ok _ => exact ⟨h.1, h.2.mono fun _ _ h ↦ h.2⟩
      | error _ => exact h
  unfold Instruction.request? at hrequest
  unfold instruction
  split at hrequest
  · -- an object
    simp only [List.mapM_cons, List.mapM_nil, bind_assoc, pure_bind]
    refine divides_operand hf.sound fun size hsize hwf ↦ ?_
    rw [hsize] at hrequest
    cases hrequest
    exact (brings_allocateSized hright hwf _ _ _ fun _ _ _ ↦ by simp).divides focus hf
  · -- several objects at once
    simp only [List.mapM_cons, List.mapM_nil, bind_assoc, pure_bind]
    refine divides_operand hf.sound fun count hcount hwfc ↦ divides_operand hf.sound fun size hsize hwf ↦ ?_
    rw [hcount, hsize] at hrequest
    cases hrequest
    refine Brings.divides ?_ focus hf
    refine brings_lift_bind (safe_zeroExtend hwfc) fun l hl ↦ ?_
    refine brings_lift_bind (safe_zeroExtend hwf) fun r hr ↦ ?_
    refine brings_lift_bind (safe_product hl.1.1 hr.1.1 hl.1.2) fun e he ↦
      brings_allocateSized hright he.1 _ _ _ fun a ha _ ↦ ?_
    rw [Request.bytes_two, he.2 a ha, hl.2 a ha, hr.2 a ha, ← Nat.mul_mod]
  · -- an object in place of another one
    simp only [List.mapM_cons, List.mapM_nil, bind_assoc, pure_bind]
    refine divides_operand hf.sound fun pointer _ hpointer ↦ divides_operand hf.sound fun size hsize hwf ↦ ?_
    rw [hsize] at hrequest
    cases hrequest
    exact (brings_reallocate hright hpointer hwf _ fun _ _ _ ↦ by simp).divides focus hf
  · -- an object that ends with the frame
    simp only [pointer, bind_assoc]
    refine divides_operand hf.sound fun count hcount hwf ↦ ?_
    rw [hcount] at hrequest
    cases hrequest
    refine Brings.divides ?_ focus hf
    refine brings_lift_bind (safe_zeroExtend hwf) fun r hr ↦ ?_
    refine brings_lift_bind (safe_product (Expr.pointer_wellFormed _) hr.1.1 rfl) fun e he ↦
      brings_allocateSized hright he.1 _ _ _ fun a ha _ ↦ ?_
    rw [Request.bytes_two, Assignment.val_const, he.2 a ha, hr.2 a ha, Expr.pointer, Assignment.val_word]
    exact Nat.mul_mod _ _ _
  · cases hrequest

theorem ends_step_request (hright : I.right) (hf : focus.Sound I) (ht : focus.Tidy) (hgoing : focus.Going)
    (hrequest : focus.state.request? focus.executor.program focus.executor.constants = some q) :
    (step : Exec σ Unit).Ends (fun _ ↦ True) focus fun _ f ↦
      focus.Parts (fun _ s ↦ s.Granted I q.destination q.bytes) f := by
  refine ends_step hf fun t i f hthread hi hexecutes ↦ ?_
  have hown := hexecutes.solo.toOwn
  have hrequest : i.request? (f.state.operand? f.executor.constants) = some q := by
    rw [hexecutes.operand_eq]
    simpa [State.request?, hthread, hi] using hrequest
  have hmeets : f.Meets I fun _ ↦ True := ⟨hexecutes.sound, (hown.succeeds ht).tidy,
    own_going hown hexecutes.removed_eq hgoing, fun _ _ ↦ trivial⟩
  refine ends_tryCatch (divides_instruction_request hright hmeets hrequest) (fun _ _ h ↦ hown.divided ht h.2)
    fun e g h ↦ ?_
  have hsettle : (settle e : Exec σ Unit).Stays I False := stays_settle e
  refine Ends.mono (Yields.and (quits_settle h.1 g) (hsettle g)) ?_
  rintro _ f' ⟨_, rfl, hquits, hsettled, -⟩
  exact (((hown.trans h.2).trans hsettled.toOwn).parts (P := fun _ ↦ False) ht.none hquits).mono
    fun _ _ h ↦ h.2.elim

end Exec

namespace Executor

variable {I : Inputs} {e e' : Executor σ} {q : Request}

/-- Whatever the inputs are, each state that comes out of a step that asks for memory has null, or an object of
the size that is asked for. Sizes are words: of a product that is larger, only the low bits count. -/
theorem granted_of_step {id id' : StateId} {s t : State} {r : Except PathError StepReport} (h : Reached I e)
    (hs : e.states[id]? = some s) (hrequest : s.request? e.program e.constants = some q)
    (hstep : (stepState id).run e = .ok (r, e')) (ht : e'.states[id']? = some t)
    (hresult : id' = id ∨ e.nextStateId ≤ id') : t.Granted I q.destination q.bytes := by
  obtain ⟨htidy, hremoved⟩ := h.tidy
  obtain ⟨hname, hlt⟩ := htidy.named id s hs
  have hvisit : Ends (fun _ ↦ True) ((visit id Exec.step).run e) fun p ↦ ∀ id' t, p.2.states[id']? = some t →
      id' ∉ p.2.removed → id' = id ∨ e.nextStateId ≤ id' → t.Granted I q.destination q.bytes := by
    refine ends_run_visit (by simp [hs]) fun s' hs' ↦ ?_
    obtain rfl : s = s' := Option.some.inj (hs.symm.trans hs')
    refine (Exec.ends_step_request trivial ⟨h.sound.erase id, h.sound.states id s hs⟩ (htidy.focusOn hs)
      (by simp [Focus.Going, focusOn, hremoved]) hrequest).mono fun _ f hparts id' t ht hgone hresult ↦ ?_
    dsimp only at ht hgone
    rw [Focus.getElem?_insert_state] at ht
    split at ht
    · rename_i heq
      obtain rfl := Option.some.inj ht
      refine hparts.own ?_
      rwa [Focus.Going, hparts.id_eq, show (e.focusOn id s).state.id = id' from hname.trans heq]
    · rename_i hne
      exact hparts.new id' (hresult.resolve_left fun h ↦ hne h.symm) t ht hgone
  refine Ends.of_eq (F := fun _ ↦ True) (P := fun p ↦ ∀ id' t, p.2.states[id']? = some t →
    id' = id ∨ e.nextStateId ≤ id' → t.Granted I q.destination q.bytes) ?_ hstep id' t ht hresult
  refine ends_run_bind hvisit fun o f hf ↦ ?_
  cases o with
  | none => exact ends_throw trivial
  | some result =>
    refine ends_run_bind (ends_update _ f) fun _ g hsettles ↦ ends_pure fun id' t ht hresult ↦ ?_
    rw [hsettles.states_eq] at ht
    split at ht
    · cases ht
    · exact hf id' t ht ‹_› hresult

/-- A program that asks for 2 ^ 63 objects of two bytes. -/
def greedy : Program where
  functions := #[{
    name := "main", parameters := 0, variadic := false, registers := 1
    body := .defined #[#[.alloca 2 (.constant 0) 0, .ret none]] }]
  globals := #[]
  constants := #[.int (2 ^ 63) 64]
  entry := 0

/-- Such a program asks for 2 ^ 64 bytes, and gets an object, which has none. -/
theorem granted_of_step_greedy : ∃ (e e' : Executor Unit) (s t : State) (q : Request), Reached .all e ∧
    e.states[0]? = some s ∧ s.request? e.program e.constants = some q ∧ (∀ a, q.bytes a = 2 ^ 64) ∧
      e'.states[0]? = some t ∧ (∀ r ∈ q.destination, t.register? r ≠ some (.pointer 0)) ∧
        t.Granted (Inputs.trusted .all) q.destination q.bytes := by
  have hrun : (do
      let e ← start greedy {} { backend := .silent, state := () } .never
      let p ← (stepState 0).run e
      return (e.states[0]?.bind fun s ↦ (s.request? e.program e.constants).map fun q ↦
        (q.destination, q.factors.map (·.value?)),
        p.2.states[0]?.map fun t ↦ (t.register? 0).bind (·.value?)) :
          Checked (Option (Option Register × List (Option Nat)) × Option (Option Nat))) =
            .ok (some (some 0, [some 2, some (2 ^ 63)]), some (some 0x10000000)) := by
    decide +kernel
  obtain ⟨e, hstart, hrun⟩ := bind_eq_ok.1 hrun
  obtain ⟨⟨r, e'⟩, hstep, hrun⟩ := bind_eq_ok.1 hrun
  simp only [pure_eq_ok, Prod.mk.injEq, Option.bind_eq_some_iff, Option.map_eq_some_iff] at hrun
  obtain ⟨⟨s, hs, ⟨destination, factors⟩, hrequest, rfl, hfactors⟩, t, ht, v, hv, hvalue⟩ := hrun
  have hreached : Reached .all e := .prepared (.start (Backend.exact_silent _) hstart)
  refine ⟨e, e', s, t, _, hreached, hs, hrequest, fun a ↦ ?_, ht, ?_,
    granted_of_step hreached hs hrequest hstep ht (.inl rfl)⟩
  · obtain ⟨l, rest, rfl, hl, hrest⟩ := List.map_eq_cons_iff.1 hfactors
    obtain ⟨r, rest, rfl, hr, hrest⟩ := List.map_eq_cons_iff.1 hrest
    obtain rfl := List.map_eq_nil_iff.1 hrest
    rw [Request.bytes_two, a.val_of_value? hl, a.val_of_value? hr]
    rfl
  · rintro _ ⟨⟩
    rw [hv]
    rintro ⟨⟩
    cases hvalue

end Executor

end Symex
