import Symex.Proofs.Feasibility.Terms
import Symex.Proofs.Spaces

namespace Symex

open Checked

/-- The inputs that are possible, and whether the answers of the solver are taken to be right. -/
structure Trust extends Inputs where
  right : Prop

/-- The answers of the solver are right, where there are any. -/
abbrev Inputs.trusted (I : Inputs) : Trust := ⟨I, True⟩

instance : Coe Inputs Trust := ⟨Inputs.trusted⟩

variable {I : Trust}

/-- Constraints contradict each other only where answers may be wrong. -/
def Trust.Bears (I : Trust) (fault : Fault) : Prop := I.right → fault ≠ .infeasible

theorem Checked.Ends.bears {α : Type} {x : Checked α} {P : α → Prop} (h : Safe x P) : Ends I.Bears x P :=
  h.weaken fun _ hf _ ↦ hf

namespace ConstraintSet

variable {c : ConstraintSet} {e : Expr}

/-- Adding a truth value that holds in some solution, or of which nothing is known, keeps exactly the
solutions where it holds. -/
theorem Valid.ends_add (hc : c.Valid) (he : e.IsTruth)
    (hsat : I.right → ∃ a, I.Solves a c ∧ a.val e ≠ 0) : Ends I.Bears (c.add e) fun c' ↦
      c'.Valid ∧ (I.right → ∀ a, I.Solves a c' ↔ I.Solves a c ∧ a.val e ≠ 0) := by
  by_cases hright : I.right
  · obtain ⟨c', hadd, hc', hsolves⟩ := hc.exists_add he (hsat hright)
    exact ends_of_eq hadd ⟨hc', fun _ ↦ hsolves⟩
  · refine Ends.weaken (ends_true_iff.2 fun c' hadd ↦ ?_) fun _ _ hr ↦ absurd hr hright
    exact ⟨(added_of_addWithin hc he.1 hadd).valid, fun hr ↦ absurd hr hright⟩

end ConstraintSet

/-! ## Memory -/

namespace AddressSpace

variable {m : AddressSpace} {x : ObjectState} {o : MemoryObject}

/-- All contents are well-formed. -/
structure WellFormed (m : AddressSpace) : Prop where
  sorted : m.objects.Sorted
  contents : ∀ p ∈ m.entries, p.2.WellFormed

theorem wellFormed_empty : WellFormed {} where
  sorted := List.Pairwise.nil
  contents := by rintro p ⟨⟩

section

variable (hm : m.WellFormed)
include hm

theorem WellFormed.of_mem_toList (hx : x ∈ m.toList) : x.WellFormed := by
  obtain ⟨p, hp, rfl⟩ := List.mem_map.1 hx
  exact hm.contents p hp

theorem WellFormed.of_find? (hx : m.find? o = some x) : x.WellFormed :=
  hm.contents (o.key, x) ((AvlMap.get?_eq_some hm.sorted).1 hx)

theorem WellFormed.fork : m.fork.WellFormed := ⟨hm.sorted, hm.contents⟩

theorem WellFormed.safe_bind (hx : x.WellFormed) : Safe (m.bind x) WellFormed := by
  refine ends_bind (safe_demand (by decide)) fun _ _ ↦ ends_pure ⟨hm.sorted.insert, fun p hp ↦ ?_⟩
  change p ∈ (m.objects.insert x.object.key _).2.toList at hp
  rw [AvlMap.toList_insert hm.sorted, List.mem_append, List.mem_cons] at hp
  obtain hp | rfl | hp := hp
  · exact hm.contents p (List.mem_filter.1 hp).1
  · exact hx.of_marks _ _
  · exact hm.contents p (List.mem_filter.1 hp).1

theorem WellFormed.safe_unbind : Safe (m.unbind o) WellFormed := by
  refine ends_bind (safe_demand (by decide)) fun _ hsome ↦ ends_pure ⟨hm.sorted.erase, fun p hp ↦ ?_⟩
  obtain ⟨x, hx⟩ := Option.isSome_iff_exists.1 hsome
  change p ∈ (m.objects.erase o.key).2.toList at hp
  rw [AvlMap.toList_erase hm.sorted hx, List.mem_append] at hp
  obtain hp | hp := hp
  · exact hm.contents p (List.mem_filter.1 hp).1
  · exact hm.contents p (List.mem_filter.1 hp).1

theorem WellFormed.safe_modify {f : ObjectState → Checked ObjectState}
    (hf : ∀ x, x.WellFormed → Safe (f x) ObjectState.WellFormed) : Safe (m.modify o f) WellFormed := by
  unfold modify
  split
  · exact ends_throw (by decide)
  · rename_i x hx
    have hwf : x.WellFormed := hm.of_find? hx
    refine ends_bind (hf { x with owner := m.epoch } (hwf.of_marks _ _)) fun y hy ↦
      ends_pure ⟨hm.sorted.modify _, fun p hp ↦ ?_⟩
    change p ∈ (m.objects.modify o.key _).toList at hp
    rw [AvlMap.toList_modify hm.sorted, Entries.replaceAt] at hp
    obtain ⟨q, hq, rfl⟩ := List.mem_map.1 hp
    split
    · exact hy
    · exact hm.contents q hq

theorem WellFormed.safe_copyIn (image : HostMemory) :
    Safe (m.copyIn image) fun p ↦ p.2.WellFormed := by
  unfold copyIn
  split
  · exact ends_pure hm
  · refine ends_bind (P := WellFormed) (ends_foldlM hm fun p _ m hm ↦ ?_) fun m hm ↦ ends_pure hm
    exact hm.safe_modify fun x hx ↦ ends_foldlM hx fun q _ x hx ↦ hx.safe_writeByte q.1 q.2

end

end AddressSpace

/-! ## Threads -/

/-- All registers that have values have well-formed ones. -/
def Frame.WellFormed (f : Frame) : Prop := ∀ e, some e ∈ f.locals → e.WellFormed

namespace Frame

variable {f : Frame} {e : Expr}

theorem enter_wellFormed (function : FunctionId) (caller : Option CallSite) (registers : Nat) :
    (enter function caller registers).WellFormed := by
  intro e he
  simp [enter] at he

theorem WellFormed.of_read? {r : Register} (hf : f.WellFormed) (h : f.read? r = some e) :
    e.WellFormed := by
  obtain h := Option.join_eq_some_iff.1 h
  exact hf e (Array.mem_of_getElem? h)

theorem WellFormed.safe_write (hf : f.WellFormed) (r : Register) (he : e.WellFormed) :
    Safe (f.write r e) WellFormed := by
  refine ends_bind (safe_demand (by decide)) fun _ _ ↦ ends_pure fun e' he' ↦ ?_
  obtain hmem | heq := Array.mem_or_eq_of_mem_setIfInBounds he'
  · exact hf e' hmem
  · exact Option.some.inj heq ▸ he

end Frame

def Thread.WellFormed (t : Thread) : Prop := ∀ f ∈ t.stack, f.WellFormed

namespace Thread

variable {t : Thread}

theorem start_wellFormed (id : ThreadId) (function : FunctionId) (registers : Nat) :
    (start id function registers).WellFormed := by
  intro f hf
  obtain rfl := List.mem_singleton.1 hf
  exact Frame.enter_wellFormed _ _ _

theorem WellFormed.safe_frame (ht : t.WellFormed) : Safe t.frame Frame.WellFormed :=
  safe_ofOption fun f hf ↦ ht f (List.mem_of_head? hf)

theorem WellFormed.safe_modifyFrame {g : Frame → Checked Frame} (ht : t.WellFormed)
    (hg : ∀ f, f.WellFormed → Safe (g f) Frame.WellFormed) : Safe (t.modifyFrame g) WellFormed := by
  unfold modifyFrame
  split
  · exact ends_throw (by decide)
  · rename_i top rest h
    have ht' : top.WellFormed ∧ ∀ f ∈ rest, f.WellFormed := by
      rw [WellFormed, h, List.forall_mem_cons] at ht
      exact ht
    refine ends_bind (hg top ht'.1) fun f hf ↦ ends_pure ?_
    exact List.forall_mem_cons.2 ⟨hf, ht'.2⟩

end Thread

/-! ## States -/

/-- The constraints have a solution, and all terms are well-formed. -/
structure State.Sound (I : Trust) (s : State) : Prop where
  valid : s.constraints.Valid
  satisfiable : I.right → I.Satisfiable s.constraints
  threads : ∀ t ∈ s.threads, t.WellFormed
  memory : s.memory.WellFormed

namespace State

variable {s : State} {e : Expr}

theorem sound_start (I : Trust) (id : StateId) (function : FunctionId) (registers : Nat) :
    (start id function registers).Sound I where
  valid := ConstraintSet.valid_empty
  satisfiable _ := I.satisfiable_empty
  threads := by
    intro t ht
    obtain rfl := List.mem_singleton.1 ht
    exact Thread.start_wellFormed _ _ _
  memory := AddressSpace.wellFormed_empty

section

variable (hs : s.Sound I)
include hs

theorem Sound.withMemory {m : AddressSpace} (hm : m.WellFormed) : { s with memory := m }.Sound I :=
  ⟨hs.valid, hs.satisfiable, hs.threads, hm⟩

theorem Sound.branch (id : StateId) : (s.branch id).1.Sound I ∧ (s.branch id).2.Sound I :=
  ⟨⟨hs.valid, hs.satisfiable, hs.threads, hs.memory.fork⟩,
    ⟨hs.valid, hs.satisfiable, hs.threads, hs.memory.fork⟩⟩

theorem Sound.of_thread? {id : ThreadId} {t : Thread} (h : s.thread? id = some t) : t.WellFormed :=
  hs.threads t (List.mem_of_find?_eq_some h)

theorem Sound.safe_thread : Safe s.thread Thread.WellFormed :=
  safe_ofOption fun _ h ↦ hs.of_thread? h

theorem Sound.setThread {t : Thread} (ht : t.WellFormed) : (s.setThread t).Sound I := by
  refine ⟨hs.valid, hs.satisfiable, fun u hu ↦ ?_, hs.memory⟩
  obtain ⟨v, hv, rfl⟩ := List.mem_map.1 hu
  split
  · exact ht
  · exact hs.threads v hv

theorem Sound.safe_modifyThread {f : Thread → Checked Thread}
    (hf : ∀ t, t.WellFormed → Safe (f t) Thread.WellFormed) : Safe (s.modifyThread f) (Sound I) :=
  ends_bind hs.safe_thread fun t ht ↦ ends_bind (hf t ht) fun _ ht' ↦ ends_pure (hs.setThread ht')

theorem Sound.safe_frame : Safe s.frame Frame.WellFormed :=
  ends_bind hs.safe_thread fun _ ht ↦ ht.safe_frame

theorem Sound.safe_modifyFrame {f : Frame → Checked Frame}
    (hf : ∀ g, g.WellFormed → Safe (f g) Frame.WellFormed) : Safe (s.modifyFrame f) (Sound I) :=
  hs.safe_modifyThread fun _ ht ↦ ht.safe_modifyFrame hf

theorem Sound.safe_write (r : Register) (he : e.WellFormed) : Safe (s.write r e) (Sound I) :=
  hs.safe_modifyFrame fun _ hf ↦ hf.safe_write r he

theorem Sound.safe_bind {x : ObjectState} (hx : x.WellFormed) :
    Safe (s.memory.bind x) fun m ↦ { s with memory := m }.Sound I :=
  (hs.memory.safe_bind hx).mono fun _ hm ↦ hs.withMemory hm

theorem Sound.safe_unbindAll (objects : List MemoryObject) : Safe (s.unbindAll objects) (Sound I) :=
  ends_bind (ends_foldlM hs.memory fun _ _ _ hm ↦ hm.safe_unbind) fun _ hm ↦
    ends_pure (hs.withMemory hm)

theorem Sound.safe_pushFrame (caller : Option CallSite) (function : FunctionId) (registers : Nat) :
    Safe (s.pushFrame caller function registers) (Sound I) :=
  hs.safe_modifyThread fun _ ht ↦
    ends_pure (List.forall_mem_cons.2 ⟨Frame.enter_wellFormed _ _ _, ht⟩)

theorem Sound.safe_bindLocal {x : ObjectState} (hx : x.WellFormed) :
    Safe (s.bindLocal x) (Sound I) :=
  ends_bind (hs.safe_bind hx) fun _ hs ↦ hs.safe_modifyFrame fun _ hf ↦ ends_pure hf

theorem Sound.safe_popFrame : Safe s.popFrame fun p ↦ p.2.Sound I := by
  refine ends_bind hs.safe_thread fun t ht ↦ ?_
  split
  · exact ends_pure hs
  · rename_i top rest h
    have hrest : ∀ f ∈ rest, f.WellFormed := by
      rw [Thread.WellFormed, h, List.forall_mem_cons] at ht
      exact ht.2
    exact ends_bind ((hs.setThread (t := { t with stack := rest }) hrest).safe_unbindAll _) fun _ hs ↦
      ends_pure hs

theorem Sound.createThread (function : FunctionId) (registers : Nat) :
    (s.createThread function registers).2.Sound I := by
  refine ⟨hs.valid, hs.satisfiable, fun t ht ↦ ?_, hs.memory⟩
  obtain ht | ht := List.mem_append.1 ht
  · exact hs.threads t ht
  · obtain rfl := List.mem_singleton.1 ht
    exact Thread.start_wellFormed _ _ _

theorem Sound.safe_terminateThread (id : ThreadId) : Safe (s.terminateThread id) (Sound I) := by
  unfold terminateThread
  split
  · exact ends_pure hs
  · apply Sound.safe_unbindAll
    refine ⟨hs.valid, hs.satisfiable, fun t ht ↦ ?_, hs.memory⟩
    exact hs.threads t (List.mem_filter.1 ht).1

theorem Sound.safe_sleep (list : WaitListId) : Safe (s.sleep list) (Sound I) :=
  ends_bind (hs.safe_modifyThread fun _ ht ↦ ends_pure ht) fun _ hs ↦
    ends_pure ⟨hs.valid, hs.satisfiable, hs.threads, hs.memory⟩

theorem Sound.wake {p : Thread → Prop} [DecidablePred p]
    {waitLists : Std.TreeMap WaitListId (List ThreadId)} :
    { s with waitLists, threads := s.threads.map fun t ↦ if p t then t.wake else t }.Sound I := by
  refine ⟨hs.valid, hs.satisfiable, fun t ht ↦ ?_, hs.memory⟩
  obtain ⟨u, hu, rfl⟩ := List.mem_map.1 ht
  split
  · exact hs.threads u hu
  · exact hs.threads u hu

theorem Sound.safe_scheduleNext (id : ThreadId) : Safe (s.scheduleNext id) (Sound I) :=
  ends_bind (P := fun _ ↦ True) (safe_ofOption fun _ _ ↦ trivial) fun _ _ ↦
    ends_bind (safe_demand (by decide)) fun _ _ ↦
      ends_pure ⟨hs.valid, hs.satisfiable, hs.threads, hs.memory⟩

theorem Sound.ends_addConstraint (he : e.IsTruth)
    (hsat : I.right → ∃ a, I.Solves a s.constraints ∧ a.val e ≠ 0) :
    Ends I.Bears (s.addConstraint e) (Sound I) := by
  refine ends_bind (hs.valid.ends_add he hsat) fun c hc ↦ ?_
  refine ends_pure ⟨hc.1, fun hright ↦ ?_, hs.threads, hs.memory⟩
  obtain ⟨a, ha⟩ := hsat hright
  exact ⟨a, (hc.2 hright a).2 ha⟩

end

end State

theorem Program.safe_function (p : Program) (f : FunctionId) : Safe (p.function f) fun _ ↦ True := by
  unfold function
  split
  · exact ends_pure trivial
  · exact ends_throw (by decide)

theorem Program.safe_instruction (p : Program) (l : Location) :
    Safe (p.instruction l) fun _ ↦ True := by
  unfold instruction
  split
  · exact ends_pure trivial
  · exact ends_throw (by decide)

theorem ProcessTree.safe_split (t : ProcessTree) (n : NodeId) (left right : StateId) :
    Safe (t.split n left right) fun _ ↦ True :=
  ends_bind (safe_demand (by decide)) fun _ _ ↦ ends_pure trivial

theorem ProcessTree.safe_merge (t : ProcessTree) (first second : NodeId) (state : StateId) :
    Safe (t.merge first second state) fun _ ↦ True :=
  ends_bind (safe_demand (by decide)) fun _ _ ↦ ends_pure trivial

theorem State.safe_stackTrace (s : State) (p : Program) : Safe (s.stackTrace p) fun _ ↦ True := by
  have htrace : ∀ stack l, Safe (traceFrom p l stack) fun _ ↦ True := by
    intro stack
    induction stack with
    | nil => exact fun _ ↦ ends_pure trivial
    | cons f rest ih =>
      exact fun _ ↦ ends_bind (p.safe_function _) fun _ _ ↦ ends_bind (ih _) fun _ _ ↦ ends_pure trivial
  unfold stackTrace
  split
  · exact ends_pure trivial
  · exact htrace _ _

/-! ## Merging -/

namespace State

variable {s t : State} {inFirst : Expr}

section

variable (hin : inFirst.WellFormed)
include hin

theorem safe_mergeFrame {f g : Frame} (hf : f.WellFormed) (hg : g.WellFormed) :
    Safe (mergeFrame inFirst f g) Frame.WellFormed := by
  refine ends_bind (ends_mapM_array (Q := fun o ↦ ∀ e, o = some e → e.WellFormed) ?_)
    fun locals hlocals ↦ ends_pure fun e he ↦ hlocals _ he e rfl
  rintro ⟨a, b⟩ hab
  dsimp only
  unfold mergeLocal
  split
  · rename_i x y
    have hx : x.WellFormed := hf x (Array.of_mem_zip hab).1
    have hy : y.WellFormed := hg y (Array.of_mem_zip hab).2
    split
    · exact ends_pure (by simpa using hx)
    · split
      · exact ends_bind (Expr.safe_mkSelect hin hx hy) fun _ he ↦ ends_pure (by simpa using he)
      · exact ends_pure (by simp)
  · exact ends_pure (by simp)

theorem safe_mergeThread {t u : Thread} (ht : t.WellFormed) (hu : u.WellFormed) :
    Safe (mergeThread inFirst t u) Thread.WellFormed := by
  refine ends_bind (ends_mapM (Q := Frame.WellFormed) ?_) fun stack hstack ↦ ends_pure hstack
  rintro ⟨f, g⟩ hfg
  exact safe_mergeFrame hin (ht f (List.of_mem_zip hfg).1) (hu g (List.of_mem_zip hfg).2)

theorem safe_mergeContents {m : AddressSpace} {x y : ObjectState} (hm : m.WellFormed)
    (hx : x.WellFormed) (hy : y.WellFormed) :
    Safe (mergeContents inFirst m x y) AddressSpace.WellFormed := by
  have hdiffer : Safe (differingBytes x y) fun l ↦
      ∀ p ∈ l, p.2.1.WellFormed ∧ p.2.2.WellFormed := by
    unfold differingBytes List.foldrM
    refine ends_foldlM (by simp) fun i _ l hl ↦ ?_
    refine ends_bind (hx.safe_readByte i) fun a ha ↦ ends_bind (hy.safe_readByte i) fun b hb ↦
      ends_pure ?_
    split
    · exact hl
    · exact List.forall_mem_cons.2 ⟨⟨ha, hb⟩, hl⟩
  refine ends_bind hdiffer fun l hl ↦ ?_
  split
  · exact ends_pure hm
  · refine hm.safe_modify fun z hz ↦ ends_foldlM hz fun p hp z hz ↦ ?_
    exact ends_bind (Expr.safe_mkSelect hin (hl p hp).1 (hl p hp).2) fun e he ↦ hz.safe_write8 _ he

end

theorem Sound.ends_merge (hs : s.Sound I) (ht : t.Sound I) :
    Ends I.Bears (s.merge t) fun r ↦ ∀ u, r = some u → u.Sound I := by
  -- a solution of the first state satisfies all that is added
  obtain ⟨a, ha⟩ : ∃ a, I.right → I.Solves a s.constraints := by
    by_cases hright : I.right
    · obtain ⟨a, ha⟩ := hs.satisfiable hright
      exact ⟨a, fun _ ↦ ha⟩
    · exact ⟨⟨true, {}⟩, fun hr ↦ absurd hr hright⟩
  have hholds : I.right → ∀ c ∈ s.constraints.toList, a.val c ≠ 0 := fun hright c hc ↦
    (Assignment.holds_iff_val (ha hright).free).1 ((ha hright).holds c hc)
  unfold merge
  split
  · dsimp only
    have hours := hs.valid.truths
    refine ends_bind (Expr.safe_mkAll fun c hc ↦ hours c (List.mem_filter.1 hc).1).bears
      fun inFirst hfirst ↦ ?_
    refine ends_bind (Expr.safe_mkAll fun c hc ↦ ht.valid.truths c (List.mem_filter.1 hc).1).bears
      fun inSecond hsecond ↦ ?_
    refine ends_bind (P := fun c : ConstraintSet ↦ c.Valid ∧ (I.right → I.Solves a c))
      (ends_foldlM ⟨ConstraintSet.valid_empty, fun hright ↦ ⟨(ha hright).possible,
        by simp [ConstraintSet.toList]⟩⟩ fun e he c hc ↦ ?_) fun common hcommon ↦ ?_
    · have he := (List.mem_filter.1 he).1
      exact (hc.1.ends_add (hours e he) fun hright ↦ ⟨a, hc.2 hright, hholds hright e he⟩).mono fun c' hc' ↦
        ⟨hc'.1, fun hright ↦ (hc'.2 hright a).2 ⟨hc.2 hright, hholds hright e he⟩⟩
    · refine ends_bind (Expr.safe_mkOr hfirst.1 hsecond.1).bears fun either heither ↦ ?_
      have hval : I.right → a.val either ≠ 0 := fun hright ↦ (heither.2 a (ha hright).free).2
        (.inl (hfirst.2 a (ha hright).free fun c hc ↦ hholds hright c (List.mem_filter.1 hc).1))
      refine ends_bind (hcommon.1.ends_add heither.1 fun hright ↦ ⟨a, hcommon.2 hright, hval hright⟩)
        fun c' hc' ↦ ?_
      refine ends_bind (ends_mapM (Q := Thread.WellFormed) ?_) fun threads hthreads ↦ ?_
      · rintro ⟨u, v⟩ huv
        exact (safe_mergeThread hfirst.1.1 (hs.threads u (List.of_mem_zip huv).1)
          (ht.threads v (List.of_mem_zip huv).2)).bears
      · refine ends_bind (ends_foldlM hs.memory ?_) fun m hm ↦ ends_pure ?_
        · rintro ⟨x, y⟩ hxy m hm
          exact (safe_mergeContents hfirst.1.1 hm (hs.memory.of_mem_toList (List.of_mem_zip hxy).1)
            (ht.memory.of_mem_toList (List.of_mem_zip hxy).2)).bears
        · rintro u ⟨⟩
          exact ⟨hc'.1, fun hright ↦ ⟨a, (hc'.2 hright a).2 ⟨hcommon.2 hright, hval hright⟩⟩, hthreads, hm⟩
  · exact ends_pure (by simp)

end State

end Symex
