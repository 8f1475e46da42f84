import Symex.Proofs.Descent.Calls

namespace Symex

open Checked

variable {σ α β : Type} {f g : Focus σ} {held : List State} {s other merged : State} {id : StateId} {p : Prop}

/-! ## Merges -/

namespace Focus

/-- Two states that are at leaves can be merged. The one that goes on is at a new leaf, and the node of the other
one, which ends, is absorbed. -/
theorem Seated.exists_merge (hf : f.Seated held) (hfirm : f.Firm) (hother : f.executor.states[id]? = some other)
    (hgoing : id ∉ f.executor.removed) : ∃ first second node tree, other.node = some first ∧
      f.state.node = some second ∧ f.executor.tree.merge first second id = .ok (node, tree) ∧
      ∀ (merged : State) (e : Executor σ), other.Beside merged → e.tree = tree →
        e.nextStateId = f.executor.nextStateId → (∀ id ∈ f.executor.removed, id ∈ e.removed) →
        f.state.id ∈ e.removed → e.states = f.executor.states.insert id { merged with node := some node } →
        f.Follows held ⟨e, f.state⟩ := by
  obtain ⟨h, hgrown, hseats⟩ := hf.grown
  have hid : other.id = id := hf.named id other hother
  have hne : other.id ≠ f.state.id := hf.ne_of_live hother
  obtain ⟨first, hfirst, hfirstLeaf⟩ := (hseats other (.inr (.inr ⟨id, hother⟩))).resolve_right
    fun habsorbed ↦ hgoing (hid ▸ habsorbed.1)
  obtain ⟨second, hsecond, hsecondLeaf⟩ := hfirm
  have hnodes : first ≠ second := by
    rintro rfl
    exact hne (ProcessTree.eq_of_mem_leaves hfirstLeaf hsecondLeaf)
  have hleaves := hgrown.linked.leaves_eq
  obtain ⟨node, tree, hmerge, hgrown', hleaf, hkept⟩ := hgrown.exists_merge (hleaves ▸ hfirstLeaf)
    (hleaves ▸ hsecondLeaf) hnodes id
  have hsits : ∀ s : State, s.id ≠ other.id → s.id ≠ f.state.id → s.Sits f.executor.tree → s.Sits tree := by
    rintro s hneOther hneOwn ⟨n, hn, hnleaf⟩
    refine ⟨n, hn, hkept n s.id ?_ ?_ hnleaf⟩
    · rintro rfl
      exact hneOther (ProcessTree.eq_of_mem_leaves hnleaf hfirstLeaf)
    · rintro rfl
      exact hneOwn (ProcessTree.eq_of_mem_leaves hnleaf hsecondLeaf)
  refine ⟨first, second, node, tree, hfirst, hsecond, hmerge,
    fun merged e hbeside htree hnext hremoved hended hstates ↦ ?_⟩
  have hmergedId : merged.id = id := hbeside.id_eq.trans hid
  -- what is known after the merge was known before, but for the state that goes on
  have hlive : ∀ (id' : StateId) (s : State), e.states[id']? = some s →
      (id' = id ∧ s = { merged with node := some node }) ∨ (id' ≠ id ∧ f.executor.states[id']? = some s) := by
    intro id' s hs
    rw [hstates, Std.TreeMap.getElem?_insert] at hs
    split at hs
    · rename_i heq
      exact .inl ⟨(Std.LawfulEqOrd.eq_of_compare heq).symm, (Option.some.inj hs).symm⟩
    · rename_i hcompare
      exact .inr ⟨fun heq ↦ hcompare (by simp [heq]), hs⟩
  have hotherHeld : ∀ s ∈ f.state :: held, s.id ≠ other.id := by
    intro s hs heq
    have hnone := hf.outside s hs
    rw [heq, hid, hother] at hnone
    cases hnone
  have habsorbed : ∀ s : State, s.Absorbed h f.executor.removed → s.Absorbed (h.merge first second node id) e.removed :=
    fun s ⟨hmem, n, hn, hnmem⟩ ↦ ⟨hremoved _ hmem, n, hn, List.mem_cons_of_mem _ (List.mem_cons_of_mem _ hnmem)⟩
  refine ⟨⟨⟨_, htree ▸ hgrown', fun s hs ↦ ?_⟩, fun s hs ↦ ?_, fun s hs ↦ ?_, fun id' s hs ↦ ?_, hf.nodup,
    fun s hs ↦ ?_⟩, rfl, fun s hs hsSits ↦ ?_⟩
  · rw [htree]
    rcases hs with rfl | hs | ⟨id', hs⟩
    · exact .inr ⟨hended, second, hsecond, List.mem_cons_of_mem _ List.mem_cons_self⟩
    · exact (hseats s (.inr (.inl hs))).imp
        (hsits s (hotherHeld s (List.mem_cons_of_mem _ hs)) (hf.ne_of_mem_held hs)) (habsorbed s)
    · rcases hlive id' s hs with ⟨-, rfl⟩ | ⟨hne', hs⟩
      · exact .inl ⟨node, rfl, hmergedId ▸ hleaf⟩
      · refine (hseats s (.inr (.inr ⟨id', hs⟩))).imp (hsits s ?_ (hf.ne_of_live hs)) (habsorbed s)
        rw [hf.named id' s hs, hid]
        exact hne'
  · rcases hs with rfl | hs | ⟨id', hs⟩
    · exact hf.apart f.state (.inl rfl)
    · exact hf.apart s (.inr (.inl hs))
    · rcases hlive id' s hs with ⟨-, rfl⟩ | ⟨-, hs⟩
      · have happart := hbeside.apart (hf.apart other (.inr (.inr ⟨id, hother⟩)))
        exact ⟨happart.nodup, happart.id_lt⟩
      · exact hf.apart s (.inr (.inr ⟨id', hs⟩))
  · rw [hnext]
    rcases hs with rfl | hs | ⟨id', hs⟩
    · exact hf.id_lt f.state (.inl rfl)
    · exact hf.id_lt s (.inr (.inl hs))
    · rcases hlive id' s hs with ⟨-, rfl⟩ | ⟨-, hs⟩
      · exact hbeside.id_eq ▸ hf.id_lt other (.inr (.inr ⟨id, hother⟩))
      · exact hf.id_lt s (.inr (.inr ⟨id', hs⟩))
  · rcases hlive id' s hs with ⟨rfl, rfl⟩ | ⟨-, hs⟩
    · exact hmergedId
    · exact hf.named id' s hs
  · rw [hstates, Std.TreeMap.getElem?_insert, if_neg]
    · exact hf.outside s hs
    · intro heq
      exact hotherHeld s hs ((Std.LawfulEqOrd.eq_of_compare heq).symm.trans hid.symm)
  · rw [htree]
    exact hsits s (hotherHeld s (List.mem_cons_of_mem _ hs)) (hf.ne_of_mem_held hs) hsSits

end Focus

namespace Exec

theorem ends_mergeWith_seated (hf : f.Seated held) (hfirm : f.Firm) {ids : List StateId}
    (hids : ∀ id ∈ ids, id ∉ f.executor.removed) :
    (mergeWith ids : Exec σ Unit).Ends (· ≠ .misuse) f fun _ g ↦ f.Follows held g := by
  induction ids with
  | nil => exact ends_pure (.refl hf)
  | cons id rest ih =>
    rw [List.forall_mem_cons] at hids
    refine ends_bind_ok rfl ?_
    dsimp only
    split
    · exact ih hids.2
    · rename_i other hother
      refine ends_lift_bind ((other.fair_merge f.state).mono fun r hr ↦ ?_)
      cases r with
      | none => exact ih hids.2
      | some merged =>
        obtain ⟨first, second, node, tree, hfirst, hsecond, hmerge, hfollows⟩ := hf.exists_merge hfirm hother hids.1
        dsimp only
        rw [hfirst, hsecond]
        dsimp only
        rw [hmerge]
        refine ends_lift_bind (Checked.ends_pure (ends_bind_ok rfl (ends_bind_ok rfl (ends_bind_ok rfl ?_))))
        dsimp only
        split
        · rename_i hended
          exact ends_pure (hfollows merged _ (hr merged rfl) rfl rfl (fun _ h ↦ h) (by simpa using hended) rfl)
        · refine ends_bind_ok rfl (ends_modifyExecutor
            (hfollows merged _ (hr merged rfl) rfl rfl (fun _ h ↦ ?_) ?_ rfl))
          · exact List.mem_append_left _ h
          · exact List.mem_append_right _ (List.mem_singleton_self _)

theorem seats_companions : (companions : Exec σ _).Seats p p :=
  seats_bind seats_executor fun _ ↦ seats_bind seats_state fun s ↦ seats_bind (seats_lift s.fair_thread) fun _ ↦
    seats_pure _

theorem seats_jump (block : BlockId) : (jump block : Exec σ Unit).Seats True False := by
  refine seats_seq (q := True) (seats_updateState fun s ↦ s.fair_modifyThread fun t ↦ Checked.ends_pure trivial)
    (fun _ ↦ seats_seq (q := True) seats_executor (fun e ↦ ?_) False.elim) False.elim
  have hdone : (pure () : Exec σ Unit).Seats True False := (seats_pure ()).mono id False.elim
  dsimp only
  split
  · refine seats_seq (q := True) seats_state (fun s ↦ seats_seq (q := True) (seats_lift s.fair_thread)
      (fun t ↦ seats_seq (q := True) (seats_lift (e.program.fair_function _)) (fun callee ↦ ?_) False.elim)
        False.elim) False.elim
    split
    · exact hdone
    · -- no state that has ended is a companion
      intro held f hf hfirm
      refine ends_bind ((seats_companions held f hf hfirm).and ends_companions) ?_ fun _ _ h ↦ ⟨h.1.1, False.elim⟩
      rintro ids _ ⟨-, rfl, hids⟩
      exact (ends_mergeWith_seated hf (hfirm trivial) (hids ids rfl)).mono fun _ _ h ↦ ⟨h, False.elim⟩
  · exact hdone

theorem fair_addTarget (targets : List (BlockId × Expr)) (block : BlockId) (condition : Expr) :
    Fair (addTarget targets block condition) fun _ ↦ True := by
  unfold addTarget
  split
  · refine fair_mapM fun t ↦ ?_
    dsimp only
    split
    · exact fair_bind (Expr.plain_mkBinary .or _ _).fair fun _ ↦ Checked.ends_pure trivial
    · exact Checked.ends_pure trivial
  · exact Checked.ends_pure trivial

theorem seats_switchTargets (value : Expr) (otherwise : BlockId) (cases : List (Nat × BlockId)) :
    (switchTargets value otherwise cases : Exec σ _).Seats p p := by
  refine seats_bind (seats_forIn fun c _ q ↦ ?_) fun q ↦ ?_
  · refine seats_bind (seats_lift (Expr.plain_constant _ _).fair) fun number ↦
      seats_bind (seats_lift (Expr.plain_mkEq _ _).fair) fun same ↦
        seats_bind (seats_lift (Expr.plain_mkBinary .and _ _).fair) fun none_ ↦
          seats_bind (seats_query fun c ↦ Solver.looks_mayBeTrue c same) fun possible ↦ ?_
    split
    · exact seats_bind (seats_lift (fair_addTarget _ _ _)) fun _ ↦ seats_pure _
    · exact seats_pure _
  · refine seats_bind (seats_query fun c ↦ Solver.looks_mayBeTrue c _) fun possible ↦ ?_
    dsimp only
    split
    · exact seats_bind (seats_lift (fair_addTarget _ _ _)) fun _ ↦ seats_pure _
    · exact seats_pure _

theorem seats_jumps (targets : List (Option Branch × BlockId × Expr)) :
    (forIn targets PUnit.unit fun (arm, block, _) _ ↦ do
      onSide arm (jump block)
      pure (ForInStep.yield PUnit.unit) : Exec σ PUnit).Seats False False :=
  seats_forIn fun q _ _ ↦ seats_bind (seats_onSide q.1 (seats_jump q.2.1) id id) fun _ ↦ seats_pure _

theorem seats_switch (value : Expr) (otherwise : BlockId) (cases : List (Nat × BlockId)) :
    (switch value otherwise cases : Exec σ Unit).Seats True False := by
  refine seats_seq (q := True) (seats_toUnique value) (fun value ↦ ?_) False.elim
  split
  · exact seats_jump _
  · refine seats_seq (q := True) (seats_switchTargets value otherwise cases) (fun targets ↦
      seats_seq (q := True) (seats_branch _) (fun arms ↦ ?_) False.elim) False.elim
    exact (seats_bind (seats_jumps _) fun _ ↦ seats_pure _).mono False.elim id

/-! ## Arithmetic -/

theorem seats_operand (o : Operand) : (operand o : Exec σ Expr).Seats p p := by
  refine seats_bind seats_executor fun e ↦ ?_
  cases o with
  | register r => exact seats_bind seats_state fun s ↦ seats_bind (seats_lift s.fair_frame) fun _ ↦ seats_ofExcept _
  | constant k =>
    dsimp only
    split
    · exact seats_pure _
    · exact seats_lift (P := fun _ ↦ True) (Checked.ends_throw (by decide))

theorem seats_pointer (o : Operand) : (pointer o : Exec σ Expr).Seats p p :=
  seats_bind (seats_operand o) fun _ ↦ seats_lift (Expr.plain_mkZext _ _).fair

theorem seats_demandSameWidth (lhs rhs : Expr) : (demandSameWidth lhs rhs : Exec σ Unit).Seats p p := by
  unfold demandSameWidth
  split
  · exact seats_fail _
  · exact seats_pure _

theorem seats_writeNew (r : Register) {c : Checked Expr} (hc : Plain c) :
    (do write r (← c) : Exec σ Unit).Seats p p :=
  seats_bind (seats_lift hc.fair) fun value ↦ seats_write r value

theorem seats_binary (op : BinOp) (lhs rhs : Expr) (r : Register) :
    (binary op lhs rhs r : Exec σ Unit).Seats True True := by
  have hwrite : (do write r (← Expr.mkBinary op lhs rhs) : Exec σ Unit).Seats True True :=
    seats_writeNew r (Expr.plain_mkBinary op lhs rhs)
  refine seats_bind seats_executor fun e ↦ ?_
  split
  · refine seats_bind (seats_fork _ true) fun sides ↦ ?_
    refine seats_bind (seats_onSide sides.1 (seats_fail _) (fun h ↦ h) fun h ↦ h) fun _ ↦ ?_
    exact seats_onSide sides.2 hwrite (fun h ↦ h) fun h ↦ h
  · exact hwrite

theorem seats_cast (op : CastOp) (value : Expr) (width : Nat) : (cast op value width : Exec σ Expr).Seats p p := by
  cases op with
  | trunc => exact seats_lift (Expr.plain_mkExtract _ _ _).fair
  | zext => exact seats_lift (Expr.plain_mkZext _ _).fair
  | ptrToInt => exact seats_lift (Expr.plain_mkZext _ _).fair
  | intToPtr => exact seats_lift (Expr.plain_mkZext _ _).fair
  | sext => exact seats_lift (Expr.plain_mkSext _ _).fair
  | bitCast =>
    unfold cast
    dsimp only
    split
    · exact seats_pure _
    · exact seats_fail _

theorem seats_elementAddress (base : Expr) (indices : List (Operand × Nat)) (offset : Nat) :
    (elementAddress base indices offset : Exec σ Expr).Seats p p := by
  refine seats_bind (seats_foldlM fun address q _ ↦ ?_) fun address ↦ ?_
  · refine seats_bind (seats_operand q.1) fun index ↦ seats_bind (seats_lift (Expr.plain_mkSext _ _).fair) fun _ ↦
      seats_bind (seats_lift (Expr.plain_mkBinary .mul _ _).fair) fun _ ↦
        seats_lift (Expr.plain_mkBinary .add _ _).fair
  · split
    · exact seats_pure _
    · exact seats_lift (Expr.plain_mkBinary .add _ _).fair

/-! ## Intrinsics -/

theorem seats_assume (condition : Expr) : (assume condition : Exec σ Unit).Seats p p := by
  refine seats_bind (seats_lift (Expr.plain_mkTruth condition).fair) fun condition ↦
    seats_bind (seats_query fun c ↦ Solver.looks_mustBeTrue c condition.isZero) fun never ↦ ?_
  split
  · exact seats_fail_bind _
  · exact seats_addConstraint condition

theorem seats_assert (condition : Expr) (message : String) :
    (assert condition message : Exec σ Unit).Seats True True :=
  seats_bind (seats_lift (Expr.plain_mkTruth condition).fair) fun _ ↦ seats_bind (seats_fork _ false) fun sides ↦
    seats_onSide sides.2 (seats_fail _) (fun h ↦ h) fun h ↦ h

theorem seats_forkTwice (destination : Option Register) : (forkTwice destination : Exec σ Unit).Seats True True := by
  refine seats_bind (seats_branch _) fun arms ↦ seats_bind (seats_forIn fun q _ _ ↦ ?_) fun _ ↦ seats_pure _
  refine seats_bind (seats_onSide q.1 ?_ (fun h ↦ h) fun h ↦ h) fun _ ↦ seats_pure _
  exact seats_bind (seats_lift (Expr.plain_constant _ _).fair) fun _ ↦ seats_writeResult _ _

theorem seats_intrinsic (i : Intrinsic) (arguments : List Expr) (destination : Option Register) :
    (intrinsic i arguments destination : Exec σ Unit).Seats True True := by
  unfold intrinsic
  -- in the order in which the intrinsics are listed there
  split
  · exact seats_allocateSized _ _ _ _
  · exact seats_bind (seats_lift (Expr.plain_mkZext _ _).fair) fun _ ↦
      seats_bind (seats_lift (Expr.plain_mkZext _ _).fair) fun _ ↦
        seats_bind (seats_lift (Expr.plain_mkBinary .mul _ _).fair) fun _ ↦ seats_allocateSized _ _ _ _
  · exact seats_reallocate _ _ _
  · exact seats_free _ _
  · exact seats_makeSymbolic _ _ _
  · exact seats_assume _
  · exact seats_assert _ _
  · exact seats_fail _
  · exact seats_terminateWith _ _
  · exact seats_forkTwice _
  · exact seats_bind (seats_knownArgument _ _) fun _ ↦ seats_updateState fun s ↦
      Checked.ends_pure (State.beside_of_eq rfl rfl rfl rfl)
  · exact seats_createThread _ _ _
  · exact seats_exitThread
  · exact seats_schedule _
  · exact seats_sleep _
  · exact seats_notify _ _
  · intro held f hf hfirm
    have hbeside : f.state.Beside f.state.newWaitList.2 := State.beside_of_eq rfl rfl rfl rfl
    refine ends_bind_ok rfl (seats_setState_bind hf hfirm hbeside ?_)
    exact seats_bind (seats_lift (Expr.plain_constant _ _).fair) fun _ ↦ seats_writeResult _ _
  · exact seats_fail _

/-! ## Instructions -/

theorem seats_instruction (i : Instruction) : (instruction i : Exec σ Unit).Seats True False := by
  have hany {x : Exec σ Unit} (hx : x.Seats True True) : x.Seats True False := hx.mono id False.elim
  have hbind {γ : Type} {x : Exec σ γ} {k : γ → Exec σ Unit} (hx : x.Seats True True)
      (hk : ∀ a, (k a).Seats True False) : (x >>= k).Seats True False := seats_seq hx hk False.elim
  cases i with
  | ret value =>
    refine hbind ?_ fun value ↦ hany (seats_ret value)
    cases value with
    | none => exact seats_pure _
    | some x => exact seats_bind (seats_operand x) fun _ ↦ seats_pure _
  | br target => exact seats_jump target
  | condBr condition ifTrue ifFalse =>
    refine hbind (seats_operand condition) fun value ↦ hbind (seats_lift (Expr.plain_mkTruth value).fair)
      fun condition ↦ hbind (seats_fork condition false) fun sides ↦ ?_
    have hjumps : (do
        onSide sides.1 (jump ifTrue)
        onSide sides.2 (jump ifFalse) : Exec σ Unit).Seats False False :=
      seats_bind (seats_onSide sides.1 (seats_jump ifTrue) id id) fun _ ↦
        seats_onSide sides.2 (seats_jump ifFalse) id id
    exact hjumps.mono False.elim id
  | switch condition otherwise cases =>
    exact hbind (seats_operand condition) fun value ↦ seats_switch value otherwise cases
  | unreachable => exact hany (seats_fail _)
  | call callee arguments destination =>
    refine hbind (seats_mapM fun x _ ↦ seats_operand x) fun arguments ↦ hany ?_
    cases callee with
    | function id => exact seats_call id arguments destination
    | pointer x => exact seats_bind (seats_pointer x) fun pointer ↦ seats_callPointer pointer arguments destination
    | intrinsic i => exact seats_intrinsic i arguments destination
  | binary op lhs rhs r =>
    exact hbind (seats_operand lhs) fun lhs ↦ hbind (seats_operand rhs) fun rhs ↦
      hbind (seats_demandSameWidth lhs rhs) fun _ ↦ hany (seats_binary op lhs rhs r)
  | icmp predicate lhs rhs r =>
    exact hbind (seats_operand lhs) fun lhs ↦ hbind (seats_operand rhs) fun rhs ↦
      hbind (seats_demandSameWidth lhs rhs) fun _ ↦ hany (seats_writeNew r (Expr.plain_build predicate lhs rhs))
  | select condition ifTrue ifFalse r =>
    exact hbind (seats_operand condition) fun value ↦ hbind (seats_lift (Expr.plain_mkTruth value).fair)
      fun condition ↦ hbind (seats_operand ifTrue) fun ifTrue ↦ hbind (seats_operand ifFalse) fun ifFalse ↦
        hbind (seats_demandSameWidth ifTrue ifFalse) fun _ ↦
          hany (seats_writeNew r (Expr.plain_mkSelect condition ifTrue ifFalse))
  | cast op value width r =>
    exact hbind (seats_operand value) fun value ↦ hbind (seats_cast op value width) fun value ↦
      hany (seats_write r value)
  | fbinary op lhs rhs r =>
    exact hbind (seats_operand lhs) fun lhs ↦ hbind (seats_operand rhs) fun rhs ↦
      hany (seats_floatBinary op lhs rhs r)
  | fcmp predicate lhs rhs r =>
    exact hbind (seats_operand lhs) fun lhs ↦ hbind (seats_operand rhs) fun rhs ↦
      hany (seats_floatCompare predicate lhs rhs r)
  | fcast op value width r =>
    exact hbind (seats_operand value) fun value ↦ hany (seats_floatCast op value width r)
  | alloca elementSize count r =>
    exact hbind (seats_pointer count) fun count ↦ hbind (seats_lift (Expr.plain_mkBinary .mul _ _).fair)
      fun size ↦ hany (seats_allocateSized size true (some r) none)
  | load address width r => exact hbind (seats_pointer address) fun address ↦ hany (seats_access _ address)
  | store address value =>
    exact hbind (seats_pointer address) fun address ↦ hbind (seats_operand value) fun value ↦
      hany (seats_access _ address)
  | elementPtr base indices offset r =>
    exact hbind (seats_pointer base) fun base ↦ hbind (seats_elementAddress base indices offset) fun address ↦
      hany (seats_write r address)
  | phi incoming r =>
    refine hbind seats_state fun s ↦ hbind (seats_lift s.fair_thread) fun t ↦ ?_
    dsimp only
    split
    · exact hany (seats_fail _)
    · rename_i x _
      exact hbind (seats_operand x) fun value ↦ hany (seats_write r value)
  | unsupported name => exact hany (seats_fail _)

theorem seats_step : (step : Exec σ Unit).Seats True False := by
  have hadvance (s : State) : Fair ({ s with steps := s.steps + 1 }.modifyThread fun t ↦ return t.advance) s.Beside :=
    (State.fair_modifyThread _ fun t ↦ Checked.ends_pure trivial).mono fun s' h ↦
      ⟨h.id_eq, h.node_eq, fun hs ↦ h.apart ⟨hs.nodup, hs.id_lt⟩⟩
  have hcatch (i : Instruction) : (tryCatch (instruction i) settle : Exec σ Unit).Seats True False := by
    intro held f hf hfirm
    refine ends_tryCatch (seats_instruction i held f hf hfirm) (fun _ _ h ↦ h) fun e g hg ↦ ?_
    exact (seats_settle (p := False) e held g hg.1.seated hg.2).mono fun _ _ h ↦ ⟨hg.1.trans h.1, h.2⟩
  refine seats_seq (q := True) seats_state (fun s ↦ seats_seq (q := True) (seats_lift s.fair_thread) (fun t ↦
    seats_seq (q := True) (seats_updateState hadvance) (fun _ ↦ seats_seq (q := True) (seats_modifyExecutor
      (fun _ ↦ rfl) (fun _ _ h ↦ h) (fun _ ↦ rfl) fun _ ↦ rfl) (fun _ ↦ seats_seq (q := True) seats_executor
        (fun e ↦ seats_seq (q := True) (seats_lift (e.program.fair_instruction _)) hcatch False.elim)
          False.elim) False.elim) False.elim) False.elim) False.elim

end Exec

end Symex
