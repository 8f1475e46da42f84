import Symex.Proofs.Heap.Objects
import Symex.Proofs.Heap.Replacements

namespace Symex

open Exec

variable {σ : Type} {I : Inputs} {F : Fault → Prop} {A B : Assignment → Prop} {Q Q' : State → Prop} {g g₀ f : Focus σ}
  {p size : Expr} {destination : Option Register} {old : Option ObjectState} {x : ObjectState}

/-- The object is neither on the stack nor a global. -/
def MemoryObject.OnHeap (o : MemoryObject) : Prop := o.isLocal = false ∧ o.isGlobal = false

/-- What became of the state for a solution: an object from the heap that the pointer is the start of was moved, or
freed if there is no size, and null got a new object. There is not always room for a new object; then the result is
null, and memory is as it was. -/
structure State.Reallocated (s : State) (p size : Expr) (destination : Option Register) (a : Assignment)
    (s' : State) : Prop where
  moved : ∀ x ∈ s.memory.toList, x.object.OnHeap → a.val p = x.object.address → a.val size ≠ 0 →
    s.Refused destination s' ∨ ∃ y, y.object.size = a.val size ∧ s.Replaced (some x) y destination s'
  freed : ∀ x ∈ s.memory.toList, x.object.OnHeap → a.val p = x.object.address → a.val size = 0 →
    s.Freed x destination s'
  allocated : a.val p = 0 →
    s.Refused destination s' ∨ ∃ y, y.object.size = a.val size ∧ s.Replaced none y destination s'

/-! ## Work inside a state -/

theorem Focus.Internal.becomes {P : Branch → State → Prop} (h : g.Internal f) (hg : g.Workable I)
    (hP : P .current f.state) : g.Becomes I P f := by
  obtain ⟨nextId, threads, memory, pool, hle, rfl⟩ := h
  exact Focus.Advanced.becomes ⟨⟨rfl, rfl, rfl, rfl, rfl, .refl _, rfl, .refl _, Nat.le_refl _, hle, fun _ h ↦ h, [],
    by simp⟩, fun _ _ ↦ rfl, fun _ h ↦ .inl h⟩ ⟨rfl, rfl⟩ rfl rfl hg.leaf fun _ ↦
    ⟨⟨hg.able.valid, hg.able.satisfiable, hg.able.enabled⟩, hP⟩

theorem Focus.Internal.constraints_eq (h : g.Internal f) : f.state.constraints = g.state.constraints := by
  obtain ⟨nextId, threads, memory, pool, hle, rfl⟩ := h
  rfl

theorem AddressSpace.Addressable.eq_of_address_eq {m : AddressSpace} {y : ObjectState} (h : m.Addressable)
    (hx : x ∈ m.toList) (hy : y ∈ m.toList) (heq : x.object.address = y.object.address) : x = y := by
  obtain ⟨q, hq, rfl⟩ := mem_toList.1 hx
  obtain ⟨r, hr, rfl⟩ := mem_toList.1 hy
  rw [h.address_eq hq, h.address_eq hr] at heq
  rw [h.spaced.eq_of_address_eq hq hr heq]

namespace Exec

theorem Effects.mono {y : Exec σ Unit} (h : Effects I F g₀ B Q y) (hA : ∀ a : Assignment, a.free → A a → B a)
    (hQ : ∀ s, s.Able I → Q s → Q' s) : Effects I F g₀ A Q' y := fun g hg ↦
  have hshare : g₀.Share I B g := ⟨hg.toWorkable, hg.continues, hg.data, fun a ha ↦ hA a ha.free (hg.confined a ha)⟩
  (h g hshare).imp fun _ _ s ↦ hQ s

theorem effects_internal {y : Exec σ Unit} (h : ∀ g, g₀.Share I A g → y.Ends F g fun r f ↦
    r = .ok () ∧ g.Internal f ∧ Q f.state) : Effects I F g₀ A (fun s ↦ s.Confined I A ∧ Q s) y := by
  refine fun g hg ↦ Ends.mono (h g hg) ?_
  rintro _ f ⟨rfl, hinternal, hQ⟩
  exact ⟨trivial, hinternal.becomes hg.toWorkable ⟨fun a ha ↦ hg.confined a (hinternal.constraints_eq ▸ ha), hQ⟩⟩

section

variable (hroomy : g₀.state.Roomy g₀.executor.allocator.nextId destination)
include hroomy

theorem effects_writeNull : Effects I F g₀ A (fun s ↦ s.Confined I A ∧ g₀.state.Refused destination s)
    (writeResult destination (.pointer 0)) := by
  refine effects_internal fun g hg ↦ ?_
  have hroomy' := hroomy.of_sameData hg.data hg.continues.nextId_le
  refine ends_writeResult_found hroomy'.registers fun threads hfound ↦
    ⟨rfl, ⟨_, threads, _, _, Nat.le_refl _, rfl⟩, State.Refused.of_sameData (s := g.state) ⟨hfound, rfl⟩ hg.data⟩

theorem effects_unbind (hx : x ∈ g₀.state.memory.toList) :
    Effects I F g₀ A (fun s ↦ s.Confined I A ∧ g₀.state.Freed x destination s) (do
      updateState (·.unbindAll [x.object])
      writeResult destination (.pointer 0)) := by
  refine effects_internal fun g hg ↦ ?_
  have hlist : g.state.memory.toList = g₀.state.memory.toList := congrArg AvlMap.values hg.data.objects_eq
  exact ends_unbind (hroomy.of_sameData hg.data hg.continues.nextId_le) (hlist ▸ hx) fun f hinternal hfreed ↦
    ⟨rfl, hinternal, hfreed.of_sameData hg.data⟩

/-- A new object of the size that `size` has, or null. -/
def Sized (I : Inputs) (A : Assignment → Prop) (s₀ : State) (size : Expr) (old : Option ObjectState)
    (destination : Option Register) (s : State) : Prop :=
  s.Confined I fun a ↦ A a ∧ (s₀.Refused destination s ∨
    ∃ y, y.object.size = a.val size ∧ s₀.Replaced old y destination s)

variable (hold : ∀ x ∈ old, x ∈ g₀.state.memory.toList)
include hold

theorem effects_allocate {n : Nat} (hA : ∀ a : Assignment, a.free → A a → B a ∧ a.val size = n) :
    Effects I F g₀ A (Sized I B g₀.state size old destination)
      (allocate n false destination (old.map (·.object))) := by
  refine Effects.mono (B := A) (Q := fun s ↦ s.Confined I A ∧ (g₀.state.Refused destination s ∨
    ∃ y, y.object.size = n ∧ g₀.state.Replaced old y destination s)) (effects_internal fun g hg ↦ ?_)
    (fun _ _ h ↦ h) ?_
  · have hlist : g.state.memory.toList = g₀.state.memory.toList := congrArg AvlMap.values hg.data.objects_eq
    refine ends_allocate (hroomy.of_sameData hg.data hg.continues.nextId_le) (fun x hx ↦ hlist ▸ hold x hx)
      fun f hinternal hdone ↦ ⟨rfl, hinternal, ?_⟩
    exact hdone.imp (·.of_sameData hg.data) fun ⟨y, hy, hreplaced⟩ ↦ ⟨y, hy, hreplaced.of_sameData hg.data⟩
  · rintro s - ⟨hconfined, hdone⟩ a ha
    obtain ⟨hB, hn⟩ := hA a ha.free (hconfined a ha)
    exact ⟨hB, hn ▸ hdone⟩

end

/-! ## Sizes that are not known -/

theorem effects_toUnique {k : Expr → Exec σ Unit} (hsize : size.WellFormed)
    (hone : ∀ v n, v.value? = some n → Effects I F g₀ (fun a ↦ A a ∧ a.val size = n) Q (k v))
    (hmany : size.value? = none → Effects I F g₀ A Q (k size)) : Effects I F g₀ A Q (toUnique size >>= k) := by
  intro g hg
  refine ends_seq (ends_toUnique hg.able.valid hg.able.satisfiable hg.unrestrained.exact hsize
    (fun v n solver hsame _ hv hall ↦ ?_) fun solver hsame hnone _ ↦ ?_)
  · exact Turns.asked (hone v n hv _ (hg.asked hsame fun a ha ↦ ⟨hg.confined a ha, hall a ha⟩)) hsame
  · exact Turns.asked (hmany hnone _ (hg.asked hsame hg.confined)) hsame

theorem exists_mkZext_address (hsize : size.IsAddress) :
    ∃ e, Expr.mkZext size 64 = .ok e ∧ e.IsAddress ∧ ∀ a : Assignment, a.free → a.val e = a.val size := by
  obtain ⟨e, he⟩ := Expr.exists_mkZext (e := size) (w := 64) (by
    simp only [Expr.WellFormed]
    exact ⟨hsize.wellFormed, by rw [hsize.width_eq], Nat.le_refl _⟩)
  obtain ⟨hover, hwidth⟩ := Expr.mkZext_over hsize.wellFormed.over he
  refine ⟨e, he, ⟨hover.wellFormed, hwidth⟩, fun a ha ↦ ?_⟩
  rw [Expr.val_mkZext ha hsize.wellFormed he, Nat.mod_eq_of_lt (wordLimit_eq ▸ hsize.val_lt ha)]

theorem exists_eq_constant (hsize : size.IsAddress) {n : Nat} (hn : n < wordLimit) :
    ∃ c e, Expr.constant n size.width = .ok c ∧ Expr.mkEq c size = .ok e ∧ e.Means fun a ↦ a.val size = n := by
  have hconstant : Expr.constant n size.width = .ok (.pointer n) := by
    rw [hsize.width_eq]
    exact Expr.constant_eq_ok.2 ⟨by decide, rfl⟩
  have hpointer := Expr.isAddress_pointer n
  obtain ⟨e, he, hmeans⟩ := Expr.exists_mkEq hpointer.wellFormed hsize.wellFormed
    (hpointer.width_eq.trans hsize.width_eq.symm)
  refine ⟨_, e, hconstant, he, hmeans.congr fun _ ↦ ?_⟩
  rw [Assignment.val_pointer hn]
  exact eq_comm

theorem ends_shrink (hg : g.Workable I) (hsize : size.IsAddress) {n : Nat} (hn : n < wordLimit) :
    (shrink size n).Ends F g fun r f ↦ ∃ m solver, r = .ok m ∧ m < wordLimit ∧ g.executor.solver.Same solver ∧
      f = g.withSolver solver := by
  induction n using Nat.strongRecOn generalizing g with
  | ind n ih =>
    rw [shrink]
    split
    · rename_i hlarge
      have hhalf : n / 2 < n := Nat.div_lt_self (Nat.lt_of_le_of_lt (Nat.zero_le _) hlarge) (by decide)
      obtain ⟨c, half, hc, hmk, hmeans⟩ := exists_eq_constant hsize (Nat.lt_trans hhalf hn)
      refine ends_seq (ends_lift (Checked.ends_of_eq hc (ends_seq (ends_lift (Checked.ends_of_eq hmk ?_)))))
      refine ends_seq (ends_query (Solver.answers_mayBeTrue hg.able.valid hg.able.satisfiable hmeans.truth.1)
        hg.unrestrained.exact (fun may solver hsame _ ↦ ?_) fun _ _ h ↦ h.elim)
      cases may with
      | false => exact ends_pure ⟨n, solver, rfl, hn, hsame, rfl⟩
      | true =>
        refine Ends.mono (ih _ hhalf (hg.share.asked hsame hg.share.confined).toWorkable (Nat.lt_trans hhalf hn)) ?_
        rintro _ f ⟨m, solver', rfl, hm, hsame', rfl⟩
        exact ⟨m, solver', rfl, hm, hsame.trans hsame', rfl⟩
    · exact ends_pure ⟨n, _, rfl, hn, .refl _, rfl⟩

theorem effects_shrink {k : Nat → Exec σ Unit} (hsize : size.IsAddress) {n : Nat} (hn : n < wordLimit)
    (hk : ∀ m < wordLimit, Effects I F g₀ A Q (k m)) : Effects I F g₀ A Q (shrink size n >>= k) := by
  refine fun g hg ↦ ends_bind (ends_shrink hg.toWorkable hsize hn) ?_ ?_
  · rintro m f ⟨_, solver, ⟨⟩, hm, hsame, rfl⟩
    exact Turns.asked (hk m hm _ (hg.asked hsame hg.confined)) hsame
  · rintro _ _ ⟨_, _, ⟨⟩, -⟩

theorem Example.value_lt (hsize : size.IsAddress) {c : ConstraintSet} {v : Expr} (h : Solver.Example I c size v) :
    v.value?.getD 0 < wordLimit := by
  obtain ⟨n, hn, a, ha, hattained⟩ := h.exists_value
  rw [hn]
  exact hattained ▸ hsize.val_lt ha.free

section

variable (hroomy : g₀.state.Roomy g₀.executor.allocator.nextId destination)
  (hold : ∀ x ∈ old, x ∈ g₀.state.memory.toList) (hsize : size.IsAddress)
include hroomy hold hsize

theorem effects_allocateRest : Effects I F g₀ A (Sized I A g₀.state size old destination)
    (allocateRest size false destination (old.map (·.object))) := by
  refine effects_query (B := fun _ ↦ A) (fun c hc hsat ↦ Solver.answers_value hc hsat hsize.wellFormed)
    (fun _ _ _ _ _ h ↦ h) fun c v hsat hv ↦ ?_
  obtain ⟨same, hmk, hmeans⟩ := Expr.exists_mkEq hv.wellFormed hsize.wellFormed hv.width_eq
  refine effects_lift hmk (effects_query (B := fun must a ↦ A a ∧ (must = true → a.val same ≠ 0))
    (fun c hc hsat ↦ Solver.answers_mustBeTrue hc hsat hmeans.truth.1)
    (fun c must a hmust ha hA ↦ ⟨hA, fun h ↦ hmust.1 h a ha⟩) fun c' must hsat' hmust ↦ ?_)
  cases must with
  | true =>
    rw [if_pos rfl]
    refine effects_allocate hroomy hold fun a ha ⟨hA, hne⟩ ↦ ⟨hA, ?_⟩
    obtain ⟨n, hn, -⟩ := hv.exists_value
    rw [hn, Option.getD_some, ← a.val_of_value? hn]
    exact ((hmeans.val_iff ha).1 (hne rfl)).symm
  | false =>
    rw [if_neg Bool.false_ne_true]
    have hpointer := Expr.isAddress_pointer hugeAllocation
    have hconstant : Expr.constant hugeAllocation size.width = .ok (.pointer hugeAllocation) := by
      rw [hsize.width_eq]
      exact Expr.constant_eq_ok.2 ⟨by decide, rfl⟩
    obtain ⟨huge, hhuge, hmeans'⟩ := Expr.exists_mkUlt hpointer.wellFormed hsize.wellFormed
      (hpointer.width_eq.trans hsize.width_eq.symm)
    refine effects_lift hconstant (effects_lift hhuge (effects_fork hmeans'.truth (effectsAt_onSide ?_)
      (effectsAt_onSide (effects_terminateOnError _ _))))
    exact (effects_writeNull hroomy).mono (fun a _ hA ↦ hA) fun s _ hs a ha ↦ ⟨(hs.1 a ha).1.1, .inl hs.2⟩

theorem effects_allocateSized : Effects I F g₀ A (Sized I A g₀.state size old destination)
    (allocateSized size false destination (old.map (·.object))) := by
  obtain ⟨size', hzext, hsize', hval⟩ := exists_mkZext_address hsize
  refine effects_lift hzext (effects_toUnique hsize'.wellFormed (fun v n hn ↦ ?_) fun hnone ↦ ?_)
  · rw [hn]
    exact effects_allocate hroomy hold fun a ha hA ↦ ⟨hA.1, (hval a ha).symm.trans hA.2⟩
  · rw [hnone]
    have hsized : ∀ s, s.Able I → Sized I A g₀.state size' old destination s →
        Sized I A g₀.state size old destination s := fun s _ hs a ha ↦ by
      simpa only [hval a ha.free] using hs a ha
    refine effects_query (B := fun _ ↦ A) (fun c hc hsat ↦ Solver.answers_value hc hsat hsize'.wellFormed)
      (fun _ _ _ _ _ h ↦ h) fun c v hsat hv ↦ effects_shrink hsize' (Example.value_lt hsize' hv) fun m hm ↦ ?_
    obtain ⟨e, condition, he, hcondition, hmeans⟩ := exists_eq_constant hsize' hm
    refine effects_lift he (effects_lift hcondition (effects_fork hmeans.truth (effectsAt_onSide ?_)
      (effectsAt_onSide ?_)))
    · exact Effects.mono (effects_allocate hroomy hold fun a ha hA ↦
        ⟨hA.1, (hmeans.val_iff ha).1 hA.2⟩) (fun _ _ h ↦ h) hsized
    · exact Effects.mono (effects_allocateRest hroomy hold hsize') (fun a _ hA ↦ hA.1) hsized

end

/-! ## Moving and freeing -/

theorem ends_demandHeap {P : Except PathError Unit → Focus σ → Prop} {o : MemoryObject}
    (hheap : o.OnHeap → P (.ok ()) g) (hfails : ∀ error : ExecError, error.isFatal = false → error.kind ≠ .early →
      P (.error ⟨g.executor.location, error⟩) g) : (demandHeap o).Ends F g P := by
  unfold demandHeap
  cases hlocal : o.isLocal with
  | true =>
    rw [if_pos rfl]
    exact ends_seq (ends_fail (hfails .freeOfAlloca rfl (by decide)))
  | false =>
    rw [if_neg Bool.false_ne_true]
    cases hglobal : o.isGlobal with
    | true => exact ends_fail (hfails .freeOfGlobal rfl (by decide))
    | false => exact ends_pure (hheap ⟨hlocal, hglobal⟩)

theorem effects_demandHeap {k : Unit → Exec σ Unit} {o : MemoryObject} (hk : o.OnHeap → Effects I F g₀ A Q (k ())) :
    Effects I F g₀ A Q (demandHeap o >>= k) := fun g hg ↦
  ends_seq (ends_demandHeap (fun hheap ↦ hk hheap g hg) fun _ hfatal hkind ↦
    ends_settle_becomes hg.toWorkable hfatal hkind)

theorem val_isZero_ne_zero {a : Assignment} (ha : a.free) {e : Expr} (he : e.WellFormed) :
    a.val e.isZero ≠ 0 ↔ a.val e = 0 := by
  rw [Expr.val_isZero ha he]
  split <;> simp [*]

section

variable (hroomy : g₀.state.Roomy g₀.executor.allocator.nextId destination) (hp : p.IsAddress)
include hroomy hp

theorem effects_free : Effects I F g₀ A (fun s ↦ s.Confined I fun a ↦ A a ∧
    (a.val p = 0 ∧ g₀.state.Refused destination s ∨ a.val p ≠ 0 ∧ ∃ x ∈ g₀.state.memory.toList,
      a.val p = x.object.address ∧ g₀.state.Freed x destination s)) (free p destination) := by
  refine effects_fork hp.wellFormed.isZero (effectsAt_onSide ?_) (effectsAt_onObjects hroomy.memory hp "free" fun x hx ↦
    effects_demandHeap fun _ ↦ ?_)
  · refine (effects_writeNull hroomy).mono (fun _ _ h ↦ h) fun s _ hs a ha ↦ ?_
    obtain ⟨hA, hnull⟩ := hs.1 a ha
    exact ⟨hA, .inl ⟨(val_isZero_ne_zero ha.free hp.wellFormed).1 hnull, hs.2⟩⟩
  · refine (effects_unbind hroomy hx).mono (fun _ _ h ↦ h) fun s _ hs a ha ↦ ?_
    obtain ⟨⟨hA, hnull⟩, haddress⟩ := hs.1 a ha
    exact ⟨hA, .inr ⟨fun hp0 ↦ (val_isZero_ne_zero ha.free hp.wellFormed).2 hp0 hnull, x, hx, haddress, hs.2⟩⟩

variable (hsize : size.IsAddress)
include hsize

theorem effects_reallocate : Effects I F g₀ A
    (fun s ↦ s.Confined I fun a ↦ A a ∧ g₀.state.Reallocated p size destination a s)
    (reallocate p size destination) := by
  obtain ⟨size', hzext, hsize', hval⟩ := exists_mkZext_address hsize
  have hempty {a : Assignment} (ha : a.free) : a.val size'.isZero ≠ 0 ↔ a.val size = 0 := by
    rw [val_isZero_ne_zero ha hsize'.wellFormed, hval a ha]
  have hnull {a : Assignment} (ha : a.free) : a.val p.isZero ≠ 0 ↔ a.val p = 0 :=
    val_isZero_ne_zero ha hp.wellFormed
  -- no object of the heap is at the address of null
  have hstart : ∀ {a : Assignment}, ∀ x ∈ g₀.state.memory.toList, x.object.OnHeap → a.val p = x.object.address →
      a.val p ≠ 0 := fun x hx hheap haddress hzero ↦
    Nat.ne_of_gt (hroomy.positive x hx hheap.2) (haddress.symm.trans hzero)
  refine effects_lift hzext (effects_fork hsize'.wellFormed.isZero (effectsAt_onSide ?_) (effectsAt_onSide
    (effects_fork hp.wellFormed.isZero (effectsAt_onSide ?_) (effectsAt_onObjects hroomy.memory hp "realloc"
      fun x hx ↦ effects_demandHeap fun hheap ↦ ?_))))
  · refine (effects_free hroomy hp).mono (fun _ _ h ↦ h) fun s _ hs a ha ↦ ?_
    obtain ⟨⟨hA, hsize⟩, hdone⟩ := hs a ha
    have hzero := (hempty ha.free).1 hsize
    refine ⟨hA, ?_⟩
    obtain ⟨hp0, hrefused⟩ | ⟨hp0, x, hx, haddress, hfreed⟩ := hdone
    · exact ⟨fun _ _ _ _ hne ↦ (hne hzero).elim,
        fun y hy hheap haddress _ ↦ (hstart y hy hheap haddress hp0).elim, fun _ ↦ .inl hrefused⟩
    · refine ⟨fun _ _ _ _ hne ↦ (hne hzero).elim, fun y hy hheap haddress' _ ↦ ?_, fun h ↦ (hp0 h).elim⟩
      rwa [hroomy.memory.eq_of_address_eq hy hx (haddress'.symm.trans haddress)]
  · have hnone : ∀ y ∈ (none : Option ObjectState), y ∈ g₀.state.memory.toList := by simp
    refine (effects_allocateSized hroomy hnone hsize').mono (fun _ _ h ↦ h) fun s _ hs a ha ↦ ?_
    obtain ⟨⟨⟨hA, hsize⟩, hp0⟩, hdone⟩ := hs a ha
    have hne : a.val size ≠ 0 := fun hzero ↦ (hempty ha.free).2 hzero hsize
    have hp0 := (hnull ha.free).1 hp0
    rw [hval a ha.free] at hdone
    exact ⟨hA, fun x hx hheap haddress _ ↦ (hstart x hx hheap haddress hp0).elim,
      fun _ _ _ _ hzero ↦ (hne hzero).elim, fun _ ↦ hdone⟩
  · have hold : ∀ y ∈ some x, y ∈ g₀.state.memory.toList := by
      rintro _ ⟨⟩
      exact hx
    refine (effects_allocateSized hroomy hold hsize').mono (fun _ _ h ↦ h) fun s _ hs a ha ↦ ?_
    obtain ⟨⟨⟨⟨hA, hsize⟩, hp0⟩, haddress⟩, hdone⟩ := hs a ha
    have hne : a.val size ≠ 0 := fun hzero ↦ (hempty ha.free).2 hzero hsize
    rw [hval a ha.free] at hdone
    refine ⟨hA, fun y hy _ haddress' _ ↦ ?_, fun _ _ _ _ hzero ↦ (hne hzero).elim,
      fun h ↦ ((hnull ha.free).2 h hp0).elim⟩
    rwa [hroomy.memory.eq_of_address_eq hy hx (haddress'.symm.trans haddress)]

end

/-- Whatever the pointer and the size are, a reallocation in a state that can be forked gives a result. In each state
that goes on from there an object of the heap that the pointer is the start of was moved with its bytes, or stayed as
it was and the result is null; if there is no size it was freed. Null got a new object with zeros, or null. -/
theorem reallocate_moves_or_refuses (hg : g.Workable I)
    (hroomy : g.state.Roomy g.executor.allocator.nextId destination) (hp : p.IsAddress) (hsize : size.IsAddress) :
    (tryCatch (reallocate p size destination) settle).Returns g fun _ f ↦ ∀ b s, g.Result f b →
      f.stateAt? b = some s → s.id ∉ f.executor.removed → ∀ a, I.Solves a s.constraints →
        I.Solves a g.state.constraints ∧ g.state.Reallocated p size destination a s := by
  have hshare : g.Share I (I.Solves · g.state.constraints) g := ⟨hg, .refl _, .refl _, fun _ ha ↦ ha⟩
  have hnothing : ∀ {f : Focus σ} {b s}, g.Becomes I (fun _ _ ↦ False) f → g.Result f b → f.stateAt? b = some s →
      s.id ∈ f.executor.removed := fun h hb hs ↦
    Classical.byContradiction fun hlive ↦ (h.parts _ _ hb hs hlive).2
  refine returns_of_ends (ends_tryCatch (effects_reallocate hroomy hp hsize g hshare) (fun _ f h ↦ ?_) fun e f h ↦ ?_)
  · exact ⟨(), rfl, fun b s hb hs hlive ↦ (h.2.parts b s hb hs hlive).2⟩
  · refine Ends.mono h ?_
    rintro _ f' ⟨rfl, h'⟩
    exact ⟨(), rfl, fun b s hb hs hlive ↦ (hlive (hnothing h' hb hs)).elim⟩

/-- A machine with one object of the heap, and room for others. -/
noncomputable def movable : Focus Unit :=
  let g := holding (.only fourBytes) none
  { g with executor := { g.executor with allocator := { nextId := 2, maxSize := 1024 } } }

theorem workable_movable : movable.Workable .all where
  unrestrained :=
    have h := (posed_holding (.only fourBytes) none isAddress_somewhere).unhindered.toUnrestrained
    ⟨h.exact, h.seeds, h.maxDepth, h.maxForks, h.inhibitForking, h.memory⟩
  able := ⟨ConstraintSet.valid_empty, Inputs.satisfiable_empty _, rfl⟩
  live := by simp [movable, holding]
  id_lt := Nat.zero_lt_one
  removed_lt := by simp [movable, holding]
  leaf := (posed_holding (.only fourBytes) none isAddress_somewhere).ready.leaf
  trace := ⟨_, rfl⟩

theorem roomy_movable : movable.state.Roomy movable.executor.allocator.nextId (some 0) := by
  have hlist : movable.state.memory.toList = [fourBytes] := rfl
  have hentries : movable.state.memory.entries = [(fourBytes.object.key, fourBytes)] := rfl
  have hproper : fourBytes.Proper ObjectState.Anything := ObjectState.proper_of_concrete rfl (by decide)
  refine ⟨?_, addressable_fourBytes, ?_, ?_, ?_, ?_, by decide, ?_, by decide⟩
  · rintro _ ⟨⟩
    exact ⟨_, _, _, rfl, rfl, by decide⟩
  · simp only [hlist, List.mem_singleton, forall_eq]
    rfl
  · simpa only [hlist, List.mem_singleton, forall_eq] using hproper.formed
  · simp only [hlist, List.mem_singleton, forall_eq]
    decide
  · simp only [hlist, List.mem_singleton, forall_eq]
    decide
  · simp only [hentries, List.mem_singleton, forall_eq]
    decide

def someSize : Expr := .zext (.read (.base (.symbolic "n" 1)) (.const 0 32)) 64

/-- A pointer to the object or somewhere else, which gets a size that is not known. -/
theorem reallocate_moves_or_refuses_movable :
    (tryCatch (reallocate somewhere someSize (some 0)) settle).Returns movable fun _ f ↦ ∀ b s, movable.Result f b →
      f.stateAt? b = some s → s.id ∉ f.executor.removed → ∀ a, Inputs.all.Solves a s.constraints →
        Inputs.all.Solves a movable.state.constraints ∧
          movable.state.Reallocated somewhere someSize (some 0) a s := by
  refine reallocate_moves_or_refuses workable_movable roomy_movable isAddress_somewhere ⟨?_, rfl⟩
  simp [someSize, Expr.WellFormed, Updates.WellFormed]

end Exec

end Symex
