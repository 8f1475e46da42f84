import Symex.Proofs.Integrity.Jumps

namespace Symex

open Checked

variable {σ α β : Type} {o : Origin} {fatal : Prop} {sh : Shape} {f g h : Focus σ}

/-- The operand is a register, or a constant that exists. -/
def Operand.Known (p : Program) : Operand → Prop
  | .register _ => True
  | .constant c => c < p.constants.size

theorem Program.Names.known {p : Program} {function : Function} {i : Instruction} (h : p.Names function i)
    {x : Operand} (hx : x ∈ i.operands) : x.Known p := by
  cases x with
  | register r => trivial
  | constant c => exact constant_lt (h.operands _ hx)

namespace Exec

variable {x : Exec σ α} {k : α → Exec σ β} {P : β → List Branch → Prop} {R : α → Prop} {r : Register}
  {destination : Option Register}

/-- The state is left as it was. -/
abbrev Remains (o : Origin) (fatal : Prop) (sh : Shape) (x : Exec σ α) : Prop :=
  x.Works o fatal sh [.current] fun _ left ↦ left = [.current]

theorem Still.remains (hx : x.Still R) : x.Remains o fatal sh := hx.works.mono id fun _ _ h ↦ h.2

theorem remains_lift {c : Checked α} (h : Plain c) : (liftM c : Exec σ α).Remains o fatal sh :=
  (still_lift h).remains

theorem Remains.bind (hx : x.Remains o fatal sh) (hk : ∀ a, (k a).Works o fatal sh [.current] P) :
    (x >>= k).Works o fatal sh [.current] P :=
  works_bind hx fun a _ h ↦ h ▸ hk a

theorem remains_mapM {γ : Type} {w : γ → Exec σ β} {l : List γ} (hw : ∀ a ∈ l, (w a).Remains o fatal sh) :
    (l.mapM w).Remains o fatal sh := by
  induction l with
  | nil => exact works_pure rfl
  | cons a l ih =>
    rw [List.forall_mem_cons] at hw
    rw [List.mapM_cons]
    exact Remains.bind hw.1 fun _ ↦ Remains.bind (ih hw.2) fun _ ↦ works_pure rfl

theorem remains_foldlM {γ : Type} {w : β → γ → Exec σ β} {l : List γ} {b : β}
    (hw : ∀ a ∈ l, ∀ b, (w b a).Remains o fatal sh) : (l.foldlM w b).Remains o fatal sh := by
  induction l generalizing b with
  | nil => exact works_pure rfl
  | cons a l ih =>
    rw [List.forall_mem_cons] at hw
    rw [List.foldlM_cons]
    exact Remains.bind (hw.1 b) fun _ ↦ ih hw.2

/-! ## Operands -/

theorem remains_operand (hsh : sh.Midway o.program o.location) {x : Operand} (hx : x.Known o.program) :
    (operand x : Exec σ Expr).Remains o fatal sh := by
  intro f g hg
  obtain ⟨rfl, -, -⟩ := hg.own_eq (by simp)
  refine ends_bind_ok rfl ?_
  cases x with
  | register r =>
    obtain ⟨t, ht, hid, hmidway⟩ := hsh.current
    obtain ⟨top, rest, hstack, -, -⟩ := hmidway.inside
    refine ends_bind_ok rfl (ends_lift_bind ((State.found_frame hsh.nodup ⟨ht, hid⟩ hstack).ordinary.mono
      fun frame _ ↦ ?_))
    refine (still_ofExcept (R := fun _ ↦ True) (fun _ _ ↦ trivial) fun e he ↦ ?_).remains f g hg
    unfold Frame.read at he
    split at he
    · cases he
    · obtain rfl := Except.error.inj he
      rfl
  | constant c =>
    dsimp only
    split
    · exact ends_pure ⟨_, rfl, hg⟩
    · rename_i hnone
      have hle := Array.getElem?_eq_none_iff.1 hnone
      rw [hg.reaches.constants_eq] at hle
      exact absurd hx (Nat.not_lt.2 hle)

theorem remains_pointer (hsh : sh.Midway o.program o.location) {x : Operand} (hx : x.Known o.program) :
    (pointer x : Exec σ Expr).Remains o fatal sh :=
  (remains_operand hsh hx).bind fun _ ↦ remains_lift (Expr.plain_mkZext _ _)

theorem still_demandSameWidth (lhs rhs : Expr) : (demandSameWidth lhs rhs : Exec σ Unit).Still fun _ ↦ True := by
  unfold demandSameWidth
  split
  · exact still_fail rfl
  · exact still_pure trivial

theorem finishes_writeNew (hsh : sh.Controlled o.program) (hr : sh.HasRegister r) {c : Checked Expr}
    (hc : Plain c) : (do write r (← c) : Exec σ Unit).Finishes o fatal sh [.current] :=
  (remains_lift hc).bind fun value ↦ finishes_write hsh hr value

/-! ## Arithmetic -/

theorem finishes_binary (hsh : sh.Controlled o.program) (hr : sh.HasRegister r) (op : BinOp) (lhs rhs : Expr) :
    (binary op lhs rhs r : Exec σ Unit).Finishes o False sh [.current] := by
  have hwrite : (do write r (← Expr.mkBinary op lhs rhs) : Exec σ Unit).Finishes o False sh [.current] :=
    finishes_writeNew hsh hr (Expr.plain_mkBinary op lhs rhs)
  refine still_executor.remains.bind fun e ↦ ?_
  split
  · refine works_bind (works_fork rhs.isZero true nofun) ?_
    rintro ⟨zero, other⟩ _ rfl
    refine works_bind (works_onSide (works_fail rfl) nofun) ?_
    rintro _ _ rfl
    exact finishes_onSide hwrite nofun
  · exact hwrite

theorem still_cast (op : CastOp) (value : Expr) (width : Nat) :
    (cast op value width : Exec σ Expr).Still fun _ ↦ True := by
  cases op with
  | trunc => exact still_lift (Expr.plain_mkExtract _ _ _)
  | zext | ptrToInt | intToPtr => exact still_lift (Expr.plain_mkZext _ _)
  | sext => exact still_lift (Expr.plain_mkSext _ _)
  | bitCast =>
    unfold cast
    dsimp only
    split
    · exact still_pure trivial
    · exact still_fail rfl

theorem remains_elementAddress (hsh : sh.Midway o.program o.location) (base : Expr)
    {indices : List (Operand × Nat)} (hindices : ∀ q ∈ indices, q.1.Known o.program) (offset : Nat) :
    (elementAddress base indices offset : Exec σ Expr).Remains o fatal sh := by
  refine Remains.bind (remains_foldlM fun q hq address ↦ ?_) fun address ↦ ?_
  · refine (remains_operand hsh (hindices q hq)).bind fun index ↦ ?_
    exact (remains_lift (Expr.plain_mkSext _ _)).bind fun _ ↦
      (remains_lift (Expr.plain_mkBinary .mul _ _)).bind fun _ ↦ remains_lift (Expr.plain_mkBinary .add _ _)
  · split
    · exact works_pure rfl
    · exact remains_lift (Expr.plain_mkBinary .add _ _)

theorem still_floatOperand (e : Expr) : (floatOperand e : Exec σ _).Still fun _ ↦ True :=
  still_bind (still_toConstant e) fun _ _ ↦ still_pure trivial

theorem still_floatFormat (width : Nat) : (floatFormat width : Exec σ _).Still fun _ ↦ True := by
  unfold floatFormat
  split
  · exact still_pure trivial
  · exact still_fail rfl

section

variable (hsh : sh.Controlled o.program) (hr : sh.HasRegister r)
include hsh hr

theorem finishes_floatBinary (op : FloatOp) (lhs rhs : Expr) :
    (floatBinary op lhs rhs r : Exec σ Unit).Finishes o fatal sh [.current] := by
  refine (still_floatOperand lhs).remains.bind fun (a, w) ↦ (still_floatOperand rhs).remains.bind fun (b, w') ↦ ?_
  dsimp only
  split
  · exact works_fail_bind rfl
  · exact (still_floatFormat w).remains.bind fun f ↦ still_executor.remains.bind fun e ↦
      finishes_writeNew hsh hr (Expr.plain_constant _ _)

theorem finishes_floatCompare (p : FloatPredicate) (lhs rhs : Expr) :
    (floatCompare p lhs rhs r : Exec σ Unit).Finishes o fatal sh [.current] := by
  refine (still_floatOperand lhs).remains.bind fun (a, w) ↦ (still_floatOperand rhs).remains.bind fun (b, w') ↦ ?_
  exact (still_floatFormat w).remains.bind fun f ↦ (still_floatFormat w').remains.bind fun f' ↦
    finishes_write hsh hr _

theorem finishes_floatCast (op : FloatCastOp) (value : Expr) (width : Nat) :
    (floatCast op value width r : Exec σ Unit).Finishes o fatal sh [.current] := by
  refine (still_floatOperand value).remains.bind fun (bits, w) ↦ ?_
  have hend : ∀ n : Nat, (do
      let result ← pure n
      write r (← Expr.constant result width) : Exec σ Unit).Finishes o fatal sh [.current] := fun n ↦
    Remains.bind (works_pure rfl) fun result ↦ finishes_writeNew hsh hr (Expr.plain_constant result width)
  cases op with
  | narrow | widen =>
    exact (still_floatFormat w).remains.bind fun f ↦ (still_floatFormat width).remains.bind fun f' ↦ hend _
  | toUnsigned | toSigned => exact (still_floatFormat w).remains.bind fun f ↦ hend _
  | ofUnsigned => exact (still_floatFormat width).remains.bind fun f ↦ hend _
  | ofSigned =>
    exact (remains_lift (Bits.plain_toSignedChecked _ _)).bind fun n ↦
      (still_floatFormat width).remains.bind fun f ↦ hend _

end

/-! ## Intrinsics -/

theorem still_assume (condition : Expr) : (assume condition : Exec σ Unit).Still fun _ ↦ True := by
  refine still_bind (still_lift (Expr.plain_mkTruth condition)) fun condition _ ↦
    still_bind (still_query fun c ↦ Solver.looks_mustBeTrue c condition.isZero) fun never _ ↦ ?_
  split
  · exact still_bind (still_fail (R := fun _ ↦ False) rfl) fun _ h ↦ h.elim
  · exact still_addConstraint condition

theorem finishes_assert (hsh : o.start.Controlled o.program) (condition : Expr) (message : String) :
    (assert condition message : Exec σ Unit).Finishes o True o.start [.current] := by
  refine (remains_lift (Expr.plain_mkTruth condition)).bind fun condition ↦ ?_
  refine works_bind (works_fork condition false fun _ ↦ ⟨trivial, rfl⟩) ?_
  rintro ⟨holds, failed⟩ _ rfl
  refine works_drop hsh (List.sublist_append_right _ _) ?_
  exact finishes_onSide (works_fail rfl) fun _ ↦ ⟨hsh, hsh⟩

theorem finishes_forkTwice (hsh : sh.Controlled o.program) (hr : sh.Accepts destination) :
    (forkTwice destination : Exec σ Unit).Finishes o False sh [.current] := by
  refine works_bind (works_branch (by simp)) ?_
  rintro arms left ⟨-, hleft⟩
  have hplaces : (arms.zipIdx.filterMap (·.1)).Perm left := by
    rw [List.zipIdx_eq_zip_range', filterMap_fst_zip List.length_range'.symm]
    exact hleft.symm
  refine works_bind ((finishes_forIn (fun q _ ↦ ?_) nofun).perm hplaces) fun _ _ h ↦ works_pure h
  exact (remains_lift (Expr.plain_constant _ _)).bind fun value ↦ finishes_writeResult hsh hr value

theorem finishes_intrinsic {callee : Callee} {operands : List Operand} (hp : o.program.isValid)
    (hstart : o.start.Midway o.program o.location)
    (hcall : o.program.instruction? o.location = some (.call callee operands destination)) (i : Intrinsic)
    (arguments : List Expr) :
    (intrinsic i arguments destination : Exec σ Unit).Finishes o True o.start [.current] := by
  have hsh := controlled_of_call hp hstart hcall
  have hr := accepts_of_call hp hstart hcall
  have hany : ∀ {x : Exec σ Unit}, x.Finishes o False o.start [.current] →
      x.Finishes o True o.start [.current] := fun hx ↦ hx.mono nofun fun _ _ h ↦ h
  have hallocate : ∀ size, (allocateSized size false destination none : Exec σ Unit).Finishes o True o.start
      [.current] := fun size ↦ hany (finishes_allocateNew hsh hr size false)
  unfold intrinsic
  -- in the order in which the intrinsics are listed there
  split
  · exact hallocate _
  · exact (remains_lift (Expr.plain_mkZext _ _)).bind fun _ ↦ (remains_lift (Expr.plain_mkZext _ _)).bind
      fun _ ↦ (remains_lift (Expr.plain_mkBinary .mul _ _)).bind fun _ ↦ hallocate _
  · exact hany (finishes_reallocate hsh hr _ _)
  · exact hany (finishes_free hsh hr _)
  · exact finishes_makeSymbolic hsh hsh _ _ _
  · exact (still_assume _).remains.finishes hsh
  · exact finishes_assert hsh _ _
  · exact works_fail rfl
  · exact finishes_terminateWith _ _
  · exact hany (finishes_forkTwice hsh hr)
  · refine (still_knownArgument _ _).remains.bind fun enabled ↦ ?_
    refine Works.finishes (Still.remains (still_updateState fun s ↦ ?_)) hsh
    exact Checked.ends_pure ⟨rfl, rfl⟩
  · exact finishes_createThread hp hsh hr _ _
  · exact hany (finishes_exitThread hsh)
  · exact hany (finishes_schedule hsh.loose _)
  · exact hany (finishes_sleep hsh _)
  · exact finishes_notify hsh _ _
  · intro f g hg
    refine ends_bind_ok rfl (ends_bind_ok rfl ?_)
    exact (remains_lift (Expr.plain_constant _ _)).bind (fun value ↦ finishes_writeResult hsh hr value) f _
      (hg.rests (Focus.Still.toRests (.of_state rfl rfl)))
  · exact works_fail rfl

/-! ## Instructions -/

theorem finishes_instruction {i : Instruction} (hp : o.program.isValid)
    (hi : o.program.instruction? o.location = some i) (hsh : o.start.Midway o.program o.location) :
    (instruction i : Exec σ Unit).Finishes o True o.start [.current] := by
  obtain ⟨function, hfunction, hnames⟩ := Program.exists_names hp hi
  have hoperand : ∀ x ∈ i.operands, (operand x : Exec σ Expr).Remains o True o.start := fun x hx ↦
    remains_operand hsh (hnames.known hx)
  have hpointer : ∀ x ∈ i.operands, (pointer x : Exec σ Expr).Remains o True o.start := fun x hx ↦
    remains_pointer hsh (hnames.known hx)
  have hblock : ∀ k ∈ i.successors, (o.program.instruction? ⟨o.location.function, k, 0⟩).isSome := fun k hk ↦
    Program.isSome_instruction?_block hp hfunction (hnames.successors k hk)
  have hnext : i.isTerminator = false → o.start.Controlled o.program := fun hterm ↦
    hsh.controlled (Program.isSome_instruction?_next hp hi hterm)
  have hregister : ∀ r, i.destination? = some r → o.start.HasRegister r := fun r hr ↦ hsh.hasRegister hp hi hr
  have hany : ∀ {x : Exec σ Unit} {todo : List Branch}, x.Finishes o False o.start todo →
      x.Finishes o True o.start todo := fun hx ↦ hx.mono nofun fun _ _ h ↦ h
  cases i with
  | ret value =>
    cases value with
    | none => exact hany (finishes_ret hsh none)
    | some x =>
      have hvalue : ((some x).mapM operand : Exec σ (Option Expr)).Remains o True o.start :=
        (hoperand x (by simp [Instruction.operands])).bind fun _ ↦ works_pure rfl
      exact hvalue.bind fun value ↦ hany (finishes_ret hsh value)
  | br target => exact finishes_jump hsh (hblock target (by simp [Instruction.successors]))
  | condBr condition ifTrue ifFalse =>
    refine (hoperand condition (by simp [Instruction.operands])).bind fun value ↦
      (remains_lift (Expr.plain_mkTruth value)).bind fun condition ↦ ?_
    refine works_bind (works_fork condition false fun _ ↦ ⟨trivial, rfl⟩) ?_
    rintro ⟨holds, fails⟩ _ rfl
    have hjump : ∀ k ∈ [ifTrue, ifFalse], (jump k : Exec σ Unit).Finishes o False o.start [.current] :=
      fun k hk ↦ finishes_jump hsh (hblock k hk)
    refine works_bind ((works_onSide (hjump ifTrue (by simp)) nofun).mono nofun fun _ _ h ↦ h) ?_
    rintro _ _ rfl
    exact hany (finishes_onSide (hjump ifFalse (by simp)) nofun)
  | switch condition otherwise cases =>
    exact (hoperand condition (by simp [Instruction.operands])).bind fun value ↦
      hany (finishes_switch hsh hblock value)
  | unreachable => exact works_fail rfl
  | call callee arguments destination =>
    have harguments : ∀ x ∈ arguments, x ∈ (Instruction.call callee arguments destination).operands := by
      intro x hx
      cases callee with
      | pointer p => exact List.mem_append_left _ hx
      | function _ | intrinsic _ => exact hx
    refine (remains_mapM fun x hx ↦ hoperand x (harguments x hx)).bind fun arguments ↦ ?_
    cases callee with
    | function id => exact finishes_call hp hsh hi (Program.callee_lt hnames.kind) arguments
    | pointer p =>
      exact (hpointer p (by simp [Instruction.operands])).bind fun pointer ↦
        hany (finishes_callEach hp hsh hi pointer arguments _ _ (some .current))
    | intrinsic i => exact finishes_intrinsic hp hsh hi i arguments
  | binary op lhs rhs r =>
    exact (hoperand lhs (by simp [Instruction.operands])).bind fun lhs ↦
      (hoperand rhs (by simp [Instruction.operands])).bind fun rhs ↦
        (still_demandSameWidth lhs rhs).remains.bind fun _ ↦
          hany (finishes_binary (hnext rfl) (hregister r rfl) op lhs rhs)
  | icmp predicate lhs rhs r =>
    exact (hoperand lhs (by simp [Instruction.operands])).bind fun lhs ↦
      (hoperand rhs (by simp [Instruction.operands])).bind fun rhs ↦
        (still_demandSameWidth lhs rhs).remains.bind fun _ ↦
          finishes_writeNew (hnext rfl) (hregister r rfl) (Expr.plain_build predicate lhs rhs)
  | select condition ifTrue ifFalse r =>
    exact (hoperand condition (by simp [Instruction.operands])).bind fun value ↦
      (remains_lift (Expr.plain_mkTruth value)).bind fun condition ↦
        (hoperand ifTrue (by simp [Instruction.operands])).bind fun ifTrue ↦
          (hoperand ifFalse (by simp [Instruction.operands])).bind fun ifFalse ↦
            (still_demandSameWidth ifTrue ifFalse).remains.bind fun _ ↦
              finishes_writeNew (hnext rfl) (hregister r rfl) (Expr.plain_mkSelect condition ifTrue ifFalse)
  | cast op value width r =>
    exact (hoperand value (by simp [Instruction.operands])).bind fun value ↦
      (still_cast op value width).remains.bind fun value ↦ finishes_write (hnext rfl) (hregister r rfl) value
  | fbinary op lhs rhs r =>
    exact (hoperand lhs (by simp [Instruction.operands])).bind fun lhs ↦
      (hoperand rhs (by simp [Instruction.operands])).bind fun rhs ↦
        finishes_floatBinary (hnext rfl) (hregister r rfl) op lhs rhs
  | fcmp predicate lhs rhs r =>
    exact (hoperand lhs (by simp [Instruction.operands])).bind fun lhs ↦
      (hoperand rhs (by simp [Instruction.operands])).bind fun rhs ↦
        finishes_floatCompare (hnext rfl) (hregister r rfl) predicate lhs rhs
  | fcast op value width r =>
    exact (hoperand value (by simp [Instruction.operands])).bind fun value ↦
      finishes_floatCast (hnext rfl) (hregister r rfl) op value width
  | alloca elementSize count r =>
    have hr : o.start.Accepts (some r) := fun _ h ↦ hregister _ h
    exact (hpointer count (by simp [Instruction.operands])).bind fun count ↦
      (remains_lift (Expr.plain_mkBinary .mul _ _)).bind fun size ↦
        hany (finishes_allocateNew (hnext rfl) hr size true)
  | load address width r =>
    have hload : (Access.load width r).Lands o.start := hregister r rfl
    exact (hpointer address (by simp [Instruction.operands])).bind fun address ↦
      hany (finishes_access (hnext rfl) hload address)
  | store address value =>
    exact (hpointer address (by simp [Instruction.operands])).bind fun address ↦
      (hoperand value (by simp [Instruction.operands])).bind fun value ↦
        hany (finishes_access (hnext rfl) (show (Access.store value).Lands o.start from trivial) address)
  | elementPtr base indices offset r =>
    have hindices : ∀ q ∈ indices, q.1.Known o.program := fun q hq ↦
      hnames.known (List.mem_cons_of_mem _ (List.mem_map_of_mem hq))
    exact (hpointer base (by simp [Instruction.operands])).bind fun base ↦
      (remains_elementAddress hsh base hindices offset).bind fun address ↦
        finishes_write (hnext rfl) (hregister r rfl) address
  | phi incoming r =>
    obtain ⟨t, ht, hid, -⟩ := hsh.current
    refine works_bind works_state ?_
    rintro s _ ⟨hshape, -, rfl⟩
    rw [← hshape] at ht hid
    have hnodup : (s.shape.threads.map (·.id)).Nodup := hshape ▸ hsh.nodup
    refine works_bind (works_lift (State.found_thread hnodup ⟨ht, hid⟩)) ?_
    rintro u _ ⟨-, rfl⟩
    dsimp only
    split
    · exact works_fail rfl
    · rename_i x hx
      obtain ⟨block, -, hlookup⟩ := Option.bind_eq_some_iff.1 hx
      obtain ⟨before, after, heq, -⟩ := List.lookup_eq_some_iff.1 hlookup
      have hmem : x ∈ incoming.map (·.2) := List.mem_map.2 ⟨(block, x), by simp [heq], rfl⟩
      exact (hoperand x hmem).bind fun value ↦ finishes_write (hnext rfl) (hregister r rfl) value
  | unsupported name => exact works_fail rfl

end Exec

/-! ## Steps -/

/-- The current thread is just past the last instruction that it executed, whether there is another one or not. -/
structure Shape.Stalled (p : Program) (bound : Nat) (sh : Shape) : Prop where
  midway : ∃ l, (p.instruction? l).isSome ∧ sh.Midway p l
  kept : sh.Kept p bound

/-- All that is known where a step begins. -/
structure Focus.Poised (p : Program) (g : Focus σ) : Prop where
  tidy : g.Tidy
  program_eq : g.executor.program = p
  constants_eq : g.executor.constants.size = p.constants.size
  kept : ∀ id s, g.executor.states[id]? = some s → id ∉ g.executor.removed → s.shape.Kept p g.bound
  inOrder : g.state.shape.InOrder p g.bound

/-- What a step makes of the machine. Other states are where they were, and new ones are in order. So is the
state that was stepped, but if the step ends the run it may be just past the instruction that was executed. -/
structure Focus.Steps (p : Program) (ended : Prop) (g h : Focus σ) : Prop where
  succeeds : g.Succeeds h
  program_eq : h.executor.program = p
  constants_eq : h.executor.constants.size = p.constants.size
  bound_le : g.bound ≤ h.bound
  old : ∀ id < g.executor.nextStateId, ∀ s, h.executor.states[id]? = some s →
    ∃ s₀, g.executor.states[id]? = some s₀ ∧ s.shape = s₀.shape
  new : ∀ id ≥ g.executor.nextStateId, ∀ s, h.executor.states[id]? = some s → id ∉ h.executor.removed →
    s.shape.InOrder p h.bound
  own : h.Going → h.state.shape.InOrder p h.bound ∨ ended ∧ h.state.shape.Stalled p h.bound

theorem Exec.found_step {p : Program} (hp : p.isValid) (hg : g.Poised p) :
    (step : Exec σ Unit).Found g fun r h ↦ g.Steps p (∃ e, r = .error e) h := by
  obtain ⟨t, ht, hid, -, -, hsome⟩ := hg.inOrder.controlled.current
  obtain ⟨i, hi⟩ := Option.isSome_iff_exists.1 hsome
  refine ends_bind_ok rfl (ends_lift_bind ((State.found_thread hg.inOrder.controlled.nodup
    ⟨ht, hid⟩).ordinary.mono fun u hu ↦ ?_))
  have hpc : u.pc = t.pc := congrArg ThreadShape.pc hu
  refine ends_updateState_bind ((State.found_advance (s := { g.state with steps := g.state.steps + 1 })
    hg.inOrder ⟨ht, hid⟩).ordinary.mono ?_)
  rintro s ⟨hsid, hmidway, hkept⟩
  refine ends_bind_ok rfl (ends_bind_ok rfl ?_)
  rw [← hpc] at hi hmidway
  -- the machine as the instruction finds it
  let f : Focus σ := ⟨{ g.executor with
    location := u.pc, statistics.steps := g.executor.statistics.steps + 1 }, s⟩
  let o : Origin := ⟨p, u.pc, s.shape⟩
  have hstand : Stand o s.shape [.current] f f := by
    refine Stand.refl (g := f) ⟨hg.tidy.named, ?_, ?_, hg.tidy.removed_lt⟩ hg.program_eq rfl hg.constants_eq
      hg.kept hkept hmidway.traceable
    · exact hsid ▸ hg.tidy.own_lt
    · exact hsid ▸ hg.tidy.own_none
  have hinstruction : Checked.Found (f.executor.program.instruction u.pc) (· = i) := by
    rw [show f.executor.program = p from hg.program_eq, Program.instruction, hi]
    exact Checked.ends_pure rfl
  have hreaches : ∀ {N : Branch → Shape → Prop} {ended : Prop} {h : Focus σ}, f.Reaches o N h →
      (∀ id sh, N (.forked id) sh → h.GoingAt (.forked id) → sh.InOrder p h.bound) →
      (∀ sh, N .current sh → h.Going → sh.InOrder p h.bound ∨ ended ∧ sh = s.shape ∧ sh.Kept p h.bound) →
      g.Steps p ended h := by
    intro N ended h hh hnew hown
    refine ⟨?_, hh.program_eq, hh.constants_eq, hh.bound_le, hh.old, fun id hge s' hs' hgoing ↦ ?_,
      fun hgoing ↦ ?_⟩
    · exact ⟨hh.succeeds.tidy, hh.succeeds.id_eq.trans hsid, hh.succeeds.config_eq, hh.succeeds.next_le,
        hh.succeeds.removed_sub, hh.succeeds.old⟩
    · exact hnew id _ (hh.new id hge s' hs') hgoing
    · refine (hown _ hh.own hgoing).imp_right fun ⟨hended, hshape, hkept⟩ ↦ ⟨hended, ⟨u.pc, ?_, ?_⟩, hkept⟩
      · rw [hi, Option.isSome_some]
      · rw [hshape]
        exact hmidway
  refine ends_lift_bind (hinstruction.ordinary.mono ?_)
  rintro _ rfl
  have hstands : ∀ {ended : Prop} {h : Focus σ}, Stand o s.shape [] f h → g.Steps p ended h := fun hh ↦
    hreaches hh.reaches (fun id sh hN hgoing ↦ by simpa [Focus.Leaves] using hN hgoing)
      fun sh hN hgoing ↦ .inl (by simpa [Focus.Leaves] using hN hgoing)
  refine ends_tryCatch (finishes_instruction (o := o) hp hi hmidway f f hstand) ?_ fun e h hh ↦ ?_
  · rintro _ h ⟨_, rfl, hh⟩
    exact hstands hh
  · refine (found_settle hh).mono fun r k hk ↦ ?_
    cases r with
    | ok _ => exact hstands (hk _)
    | error e' =>
      obtain ⟨hfatal, hk⟩ := hk
      refine hreaches hk.reaches (fun id sh hN hgoing ↦ ?_) fun sh hN hgoing ↦ ?_
      · obtain hsh | ⟨hcurrent, -⟩ := hN hgoing
        · exact hsh
        · cases hcurrent
      · exact (hN hgoing).imp_right fun hsh ↦ ⟨⟨e', rfl⟩, hsh.2.2 hfatal⟩

theorem Exec.ends_step_of_none {p : Program} {l : Location} (hg : g.state.shape.Midway p l)
    (hprogram : g.executor.program = p) (hnone : p.instruction? l.next = none) :
    (step : Exec σ Unit).Ends (fun fault ↦ fault ≠ .unbound ∧ fault ≠ .ended) g fun _ _ ↦ False := by
  obtain ⟨t, ht, hid, hmidway⟩ := hg.current
  refine ends_bind_ok rfl (ends_lift_bind ((State.found_thread hg.nodup ⟨ht, hid⟩).weaken
    (fun _ h ↦ h.1.2) |>.mono fun u hu ↦ ?_))
  have hpc : u.pc = l.next := (congrArg ThreadShape.pc hu).trans hmidway.pc_eq
  refine ends_updateState_bind ((State.found_modifyThread (R := fun _ ↦ True)
    (s := { g.state with steps := g.state.steps + 1 }) hg.nodup ⟨ht, hid⟩ fun _ _ ↦
      Checked.ends_pure trivial).weaken (fun _ h ↦ h.1.2) |>.mono fun s _ ↦ ?_)
  refine ends_bind_ok rfl (ends_bind_ok rfl (ends_lift_bind ?_))
  rw [show Program.instruction _ u.pc = .error .missing by
    rw [hpc, show g.executor.program = p from hprogram, Program.instruction, hnone]]
  exact Checked.ends_throw (by decide)

end Symex
