import Symex.Proofs.Guidance.Contents
import Symex.Proofs.Merging.States

namespace Symex

open Checked

/-- The inputs agree wherever one of the arrays has a byte. -/
def Assignment.SameOn (arrays : List NamedArray) (a b : Assignment) : Prop :=
  ∀ A ∈ arrays, ∀ i < A.size, a.byte? A i = b.byte? A i

theorem Assignment.SameOn.symm {arrays : List NamedArray} {a b : Assignment} (h : a.SameOn arrays b) :
    b.SameOn arrays a := fun A hA i hi ↦ (h A hA i hi).symm

/-- Solutions are alike if they agree on the arrays. -/
def Likeness.on (arrays : List NamedArray) (c : ConstraintSet) : Likeness where
  like a b := a.SameOn arrays b ∧ Inputs.all.Solves a c ∧ Inputs.all.Solves b c
  free h := ⟨h.2.1.possible, h.2.2.possible⟩

/-- Whether the constraints hold depends on the bytes of the arrays alone. -/
def ConstraintSet.ClosedOn (arrays : List NamedArray) (c : ConstraintSet) : Prop :=
  ∀ ⦃a b : Assignment⦄, b.free = true → a.SameOn arrays b → Inputs.all.Solves a c → Inputs.all.Solves b c

variable {L M : Likeness} {K K' : MemoryObject → Prop}

/-! ## Memory -/

/-- The contents of all objects are determined, and the objects are as `K` says. -/
structure AddressSpace.Determined (L : Likeness) (K : MemoryObject → Prop) (m : AddressSpace) : Prop where
  sorted : m.objects.Sorted
  keyed : ∀ p ∈ m.entries, p.1 = p.2.object.key
  contents : ∀ p ∈ m.entries, p.2.Determined L ∧ K p.2.object

namespace AddressSpace

variable {m : AddressSpace} {x : ObjectState} {o : MemoryObject}

theorem determined_empty : Determined L K {} where
  sorted := List.Pairwise.nil
  keyed := by rintro p ⟨⟩
  contents := by rintro p ⟨⟩

theorem Determined.mono (hm : m.Determined M K) (hle : L ≤ M) : m.Determined L K :=
  ⟨hm.sorted, hm.keyed, fun p hp ↦ ⟨(hm.contents p hp).1.mono hle, (hm.contents p hp).2⟩⟩

section

variable (hm : m.Determined L K)
include hm

theorem Determined.wellFormed : m.WellFormed :=
  ⟨hm.sorted, fun p hp ↦ (hm.contents p hp).1.formed.wellFormed⟩

theorem Determined.of_find? (hx : m.find? o = some x) :
    x.Determined L ∧ K x.object ∧ x.object.key = o.key :=
  have hmem := (AvlMap.get?_eq_some hm.sorted).1 hx
  ⟨(hm.contents _ hmem).1, (hm.contents _ hmem).2, (hm.keyed _ hmem).symm⟩

theorem Determined.fork : m.fork.Determined L K := ⟨hm.sorted, hm.keyed, hm.contents⟩

theorem Determined.meets_bind (hx : x.Determined L) (ho : K x.object) : Meets (m.bind x) (Determined L K) := by
  have hentry : ∀ p ∈ (m.objects.insert x.object.key { x with owner := m.epoch }).2.toList,
      p ∈ m.entries ∨ p = (x.object.key, { x with owner := m.epoch }) := by
    intro p hp
    rw [AvlMap.toList_insert hm.sorted, List.mem_append, List.mem_cons] at hp
    obtain hp | rfl | hp := hp
    · exact .inl (List.mem_filter.1 hp).1
    · exact .inr rfl
    · exact .inl (List.mem_filter.1 hp).1
  refine ends_bind (P := fun _ ↦ True) (ends_true_iff.2 fun _ _ ↦ trivial) fun _ _ ↦
    ends_pure ⟨hm.sorted.insert, fun p hp ↦ ?_, fun p hp ↦ ?_⟩
  · obtain hp | rfl := hentry p hp
    · exact hm.keyed p hp
    · rfl
  · obtain hp | rfl := hentry p hp
    · exact hm.contents p hp
    · exact ⟨hx.of_owner _, ho⟩

theorem Determined.meets_unbind : Meets (m.unbind o) (Determined L K) := by
  refine ends_bind (P := fun _ ↦ (m.objects.erase o.key).1.isSome) (ends_demand (fun _ ↦ trivial) id)
    fun _ hsome ↦ ?_
  obtain ⟨x, hx⟩ := Option.isSome_iff_exists.1 hsome
  have hentry : ∀ p ∈ (m.objects.erase o.key).2.toList, p ∈ m.entries := by
    intro p hp
    rw [AvlMap.toList_erase hm.sorted hx, List.mem_append] at hp
    obtain hp | hp := hp
    · exact (List.mem_filter.1 hp).1
    · exact (List.mem_filter.1 hp).1
  exact ends_pure ⟨hm.sorted.erase, fun p hp ↦ hm.keyed p (hentry p hp), fun p hp ↦
    hm.contents p (hentry p hp)⟩

theorem Determined.meets_modify {f : ObjectState → Checked ObjectState}
    (hf : ∀ x, x.Determined L → Meets (f x) fun y ↦ y.Determined L ∧ y.object = x.object) :
    Meets (m.modify o f) (Determined L K) := by
  unfold modify
  split
  · exact ends_throw trivial
  · rename_i x hx
    obtain ⟨hdet, hobject, hkey⟩ := hm.of_find? hx
    refine ends_bind (hf { x with owner := m.epoch } (hdet.of_owner _)) fun y hy ↦ ?_
    have hentry : ∀ p ∈ (m.objects.modify o.key fun _ ↦ y).toList, p ∈ m.entries ∨ p = (o.key, y) := by
      intro p hp
      rw [AvlMap.toList_modify hm.sorted, Entries.replaceAt] at hp
      obtain ⟨q, hq, rfl⟩ := List.mem_map.1 hp
      split
      · rename_i heq
        exact .inr (Prod.ext (Std.LawfulEqOrd.eq_of_compare heq) rfl)
      · exact .inl hq
    refine ends_pure ⟨hm.sorted.modify _, fun p hp ↦ ?_, fun p hp ↦ ?_⟩
    · obtain hp | rfl := hentry p hp
      · exact hm.keyed p hp
      · exact hkey.symm.trans (congrArg MemoryObject.key hy.2).symm
    · obtain hp | rfl := hentry p hp
      · exact hm.contents p hp
      · exact ⟨hy.1, hy.2 ▸ hobject⟩

theorem Determined.meets_copyIn (image : HostMemory) :
    Meets (m.copyIn image) fun p ↦ p.2.Determined L K := by
  unfold copyIn
  split
  · exact ends_pure hm
  · refine ends_bind (P := Determined L K) (ends_foldlM hm fun p _ m hm ↦ ?_) fun m hm ↦ ends_pure hm
    refine hm.meets_modify fun x hx ↦ ?_
    refine ends_foldlM (P := fun y : ObjectState ↦ y.Determined L ∧ y.object = x.object) ⟨hx, rfl⟩
      fun q _ y hy ↦ ?_
    exact (hy.1.writeByte q.1 q.2).mono fun z hz ↦ ⟨hz.1, hz.2.trans hy.2⟩

end

end AddressSpace

/-! ## Threads -/

/-- All registers that have values have determined ones. -/
def Frame.Determined (L : Likeness) (f : Frame) : Prop := ∀ e, some e ∈ f.locals → e.Determined L

def Thread.Determined (L : Likeness) (t : Thread) : Prop := ∀ f ∈ t.stack, f.Determined L

section

variable {f : Frame} {t : Thread} {e : Expr}

theorem Frame.determined_enter (function : FunctionId) (caller : Option CallSite) (registers : Nat) :
    (Frame.enter function caller registers).Determined L := by
  intro e he
  simp [Frame.enter] at he

theorem Frame.Determined.of_read? {r : Register} (hf : f.Determined L) (h : f.read? r = some e) :
    e.Determined L :=
  hf e (Array.mem_of_getElem? (Option.join_eq_some_iff.1 h))

theorem Frame.Determined.meets_write (hf : f.Determined L) (r : Register) (he : e.Determined L) :
    Meets (f.write r e) (Frame.Determined L) := by
  refine ends_bind (P := fun _ ↦ True) (ends_true_iff.2 fun _ _ ↦ trivial) fun _ _ ↦ ends_pure fun e' he' ↦ ?_
  obtain hmem | heq := Array.mem_or_eq_of_mem_setIfInBounds he'
  · exact hf e' hmem
  · exact Option.some.inj heq ▸ he

theorem Thread.determined_start (id : ThreadId) (function : FunctionId) (registers : Nat) :
    (Thread.start id function registers).Determined L := by
  intro f hf
  obtain rfl := List.mem_singleton.1 hf
  exact Frame.determined_enter _ _ _

theorem Thread.Determined.mono (ht : t.Determined M) (hle : L ≤ M) : t.Determined L :=
  fun f hf e he ↦ (ht f hf e he).mono hle

theorem Thread.Determined.wellFormed (ht : t.Determined L) : t.WellFormed :=
  fun f hf e he ↦ (ht f hf e he).wellFormed

theorem Thread.Determined.meets_frame (ht : t.Determined L) : Meets t.frame (Frame.Determined L) :=
  ends_ofOption trivial fun f hf ↦ ht f (List.mem_of_head? hf)

theorem Thread.Determined.meets_modifyFrame {g : Frame → Checked Frame} (ht : t.Determined L)
    (hg : ∀ f, f.Determined L → Meets (g f) (Frame.Determined L)) :
    Meets (t.modifyFrame g) (Thread.Determined L) := by
  unfold Thread.modifyFrame
  split
  · exact ends_throw trivial
  · rename_i top rest h
    have ht' : top.Determined L ∧ ∀ f ∈ rest, f.Determined L := by
      rw [Thread.Determined, h, List.forall_mem_cons] at ht
      exact ht
    exact ends_bind (hg top ht'.1) fun f hf ↦ ends_pure (List.forall_mem_cons.2 ⟨hf, ht'.2⟩)

end

/-! ## States -/

namespace State

def like (s : State) : Likeness := .on s.arrays s.constraints

/-- The terms of the state, its constraints among them, depend on its inputs alone, and its objects are as
`K` says. -/
structure Grounded (K : MemoryObject → Prop) (s : State) : Prop where
  valid : s.constraints.Valid
  satisfiable : Inputs.all.Satisfiable s.constraints
  closed : s.constraints.ClosedOn s.arrays
  names : (s.arrays.map (·.name)).Nodup
  threads : ∀ t ∈ s.threads, t.Determined s.like
  memory : s.memory.Determined s.like K

/-- The state `s'` goes by the same name and has the same constraints and inputs. -/
structure Stays (s s' : State) : Prop where
  id_eq : s'.id = s.id
  constraints_eq : s'.constraints = s.constraints
  arrays_eq : s'.arrays = s.arrays

variable {s s' s'' t : State} {e : Expr}

theorem Stays.refl (s : State) : s.Stays s := ⟨rfl, rfl, rfl⟩

theorem Stays.trans (h : s.Stays s') (h' : s'.Stays s'') : s.Stays s'' :=
  ⟨h'.id_eq.trans h.id_eq, h'.constraints_eq.trans h.constraints_eq, h'.arrays_eq.trans h.arrays_eq⟩

theorem Stays.like_eq (h : s.Stays s') : s'.like = s.like := by
  rw [like, like, h.arrays_eq, h.constraints_eq]

/-- The state `s'` is grounded, and stays what `s` is. -/
structure Steady (K : MemoryObject → Prop) (s s' : State) : Prop extends s.Stays s' where
  grounded : s'.Grounded K

theorem Steady.trans (h : s.Steady K s') (h' : s'.Steady K s'') : s.Steady K s'' :=
  ⟨h.toStays.trans h'.toStays, h'.grounded⟩

theorem grounded_start (id : StateId) (function : FunctionId) (registers : Nat) :
    (start id function registers).Grounded K where
  valid := ConstraintSet.valid_empty
  satisfiable := Inputs.satisfiable_empty _
  closed _ _ hb _ _ := ⟨hb, by simp [start, ConstraintSet.toList]⟩
  names := List.nodup_nil
  threads := by
    intro t ht
    obtain rfl := List.mem_singleton.1 ht
    exact Thread.determined_start _ _ _
  memory := AddressSpace.determined_empty

section

variable (hs : s.Grounded K)
include hs

theorem Grounded.steady : s.Steady K s := ⟨.refl s, hs⟩

theorem Grounded.sound : s.Sound Inputs.all :=
  ⟨hs.valid, fun _ ↦ hs.satisfiable, fun t ht ↦ (hs.threads t ht).wellFormed, hs.memory.wellFormed⟩

theorem Grounded.forget : s.Grounded fun _ ↦ True :=
  ⟨hs.valid, hs.satisfiable, hs.closed, hs.names, hs.threads,
    hs.memory.sorted, hs.memory.keyed, fun p hp ↦ ⟨(hs.memory.contents p hp).1, trivial⟩⟩

theorem Grounded.withMemory {m : AddressSpace} (hm : m.Determined s.like K) :
    s.Steady K { s with memory := m } :=
  ⟨⟨rfl, rfl, rfl⟩, hs.valid, hs.satisfiable, hs.closed, hs.names, hs.threads, hm⟩

theorem Grounded.withThreads {threads : List Thread} (h : ∀ t ∈ threads, t.Determined s.like) :
    s.Steady K { s with threads } :=
  ⟨⟨rfl, rfl, rfl⟩, hs.valid, hs.satisfiable, hs.closed, hs.names, h, hs.memory⟩

theorem Grounded.withNode (node : Option NodeId) : ({ s with node } : State).Grounded K :=
  ⟨hs.valid, hs.satisfiable, hs.closed, hs.names, hs.threads, hs.memory⟩

theorem Grounded.branch (id : StateId) : s.Steady K (s.branch id).1 ∧ (s.branch id).2.Grounded K ∧
    (s.branch id).2.like = s.like :=
  have hmemory := hs.memory.fork
  ⟨⟨⟨rfl, rfl, rfl⟩, hs.valid, hs.satisfiable, hs.closed, hs.names, hs.threads, hmemory⟩,
    ⟨hs.valid, hs.satisfiable, hs.closed, hs.names, hs.threads, hmemory⟩, rfl⟩

theorem Grounded.of_thread? {id : ThreadId} {t : Thread} (h : s.thread? id = some t) : t.Determined s.like :=
  hs.threads t (List.mem_of_find?_eq_some h)

theorem Grounded.meets_thread : Meets s.thread (Thread.Determined s.like) :=
  ends_ofOption trivial fun _ h ↦ hs.of_thread? h

theorem Grounded.setThread {t : Thread} (ht : t.Determined s.like) : s.Steady K (s.setThread t) := by
  refine hs.withThreads fun u hu ↦ ?_
  obtain ⟨v, hv, rfl⟩ := List.mem_map.1 hu
  split
  · exact ht
  · exact hs.threads v hv

theorem Grounded.meets_modifyThread {f : Thread → Checked Thread}
    (hf : ∀ t, t.Determined s.like → Meets (f t) (Thread.Determined s.like)) :
    Meets (s.modifyThread f) (s.Steady K) :=
  ends_bind hs.meets_thread fun t ht ↦ ends_bind (hf t ht) fun _ ht' ↦ ends_pure (hs.setThread ht')

theorem Grounded.meets_frame : Meets s.frame (Frame.Determined s.like) :=
  ends_bind hs.meets_thread fun _ ht ↦ ht.meets_frame

theorem Grounded.meets_modifyFrame {f : Frame → Checked Frame}
    (hf : ∀ g, g.Determined s.like → Meets (f g) (Frame.Determined s.like)) :
    Meets (s.modifyFrame f) (s.Steady K) :=
  hs.meets_modifyThread fun _ ht ↦ ht.meets_modifyFrame hf

theorem Grounded.meets_write (r : Register) (he : e.Determined s.like) : Meets (s.write r e) (s.Steady K) :=
  hs.meets_modifyFrame fun _ hf ↦ hf.meets_write r he

theorem Grounded.meets_bind {x : ObjectState} (hx : x.Determined s.like) (ho : K x.object) :
    Meets (s.memory.bind x) fun m ↦ s.Steady K { s with memory := m } :=
  (hs.memory.meets_bind hx ho).mono fun _ hm ↦ hs.withMemory hm

theorem Grounded.meets_unbindAll (objects : List MemoryObject) : Meets (s.unbindAll objects) (s.Steady K) :=
  ends_bind (ends_foldlM hs.memory fun _ _ _ hm ↦ hm.meets_unbind) fun _ hm ↦ ends_pure (hs.withMemory hm)

theorem Grounded.meets_pushFrame (caller : Option CallSite) (function : FunctionId) (registers : Nat) :
    Meets (s.pushFrame caller function registers) (s.Steady K) :=
  hs.meets_modifyThread fun _ ht ↦
    ends_pure (List.forall_mem_cons.2 ⟨Frame.determined_enter _ _ _, ht⟩)

theorem Grounded.meets_bindLocal {x : ObjectState} (hx : x.Determined s.like) (ho : K x.object) :
    Meets (s.bindLocal x) (s.Steady K) :=
  ends_bind (hs.meets_bind hx ho) fun _ h ↦
    (h.grounded.meets_modifyFrame fun f hf ↦
      ends_pure (show Frame.Determined _ { f with allocas := f.allocas ++ [x.object] } from hf)).mono
        fun _ h' ↦ h.trans h'

theorem Grounded.meets_popFrame : Meets s.popFrame fun p ↦ s.Steady K p.2 := by
  refine ends_bind hs.meets_thread fun t ht ↦ ?_
  split
  · exact ends_pure hs.steady
  · rename_i top rest h
    have hrest : ∀ f ∈ rest, f.Determined s.like := by
      rw [Thread.Determined, h, List.forall_mem_cons] at ht
      exact ht.2
    have hset := hs.setThread (t := { t with stack := rest }) hrest
    exact ends_bind (hset.grounded.meets_unbindAll _) fun _ h ↦ ends_pure (hset.trans h)

theorem Grounded.createThread (function : FunctionId) (registers : Nat) :
    s.Steady K (s.createThread function registers).2 := by
  refine ⟨⟨rfl, rfl, rfl⟩, hs.valid, hs.satisfiable, hs.closed, hs.names, fun t ht ↦ ?_, hs.memory⟩
  obtain ht | ht := List.mem_append.1 ht
  · exact hs.threads t ht
  · obtain rfl := List.mem_singleton.1 ht
    exact Thread.determined_start _ _ _

theorem Grounded.meets_terminateThread (id : ThreadId) : Meets (s.terminateThread id) (s.Steady K) := by
  unfold terminateThread
  split
  · exact ends_pure hs.steady
  · rename_i t _
    have hrest : s.Steady K { s with
        threads := s.threads.filter (·.id ≠ id)
        exitedAt := if id = s.current then some t.prevPc else s.exitedAt
        waitLists := s.waitLists.map fun _ sleepers ↦ sleepers.filter (· ≠ id) } :=
      ⟨⟨rfl, rfl, rfl⟩, hs.valid, hs.satisfiable, hs.closed, hs.names,
        fun t ht ↦ hs.threads t (List.mem_filter.1 ht).1, hs.memory⟩
    exact (hrest.grounded.meets_unbindAll _).mono fun _ h ↦ hrest.trans h

theorem Grounded.meets_sleep (list : WaitListId) : Meets (s.sleep list) (s.Steady K) :=
  ends_bind (hs.meets_modifyThread fun _ ht ↦ ends_pure ht) fun _ h ↦ ends_pure
    ⟨⟨h.id_eq, h.constraints_eq, h.arrays_eq⟩, h.grounded.valid, h.grounded.satisfiable, h.grounded.closed,
      h.grounded.names, h.grounded.threads, h.grounded.memory⟩

theorem Grounded.wake {p : Thread → Prop} [DecidablePred p]
    {waitLists : Std.TreeMap WaitListId (List ThreadId)} :
    s.Steady K { s with waitLists, threads := s.threads.map fun t ↦ if p t then t.wake else t } := by
  refine ⟨⟨rfl, rfl, rfl⟩, hs.valid, hs.satisfiable, hs.closed, hs.names, fun t ht ↦ ?_, hs.memory⟩
  obtain ⟨u, hu, rfl⟩ := List.mem_map.1 ht
  split
  · exact hs.threads u hu
  · exact hs.threads u hu

theorem Grounded.meets_scheduleNext (id : ThreadId) : Meets (s.scheduleNext id) (s.Steady K) :=
  ends_bind (P := fun _ ↦ True) (ends_true_iff.2 fun _ _ ↦ trivial) fun _ _ ↦
    ends_bind (P := fun _ ↦ True) (ends_true_iff.2 fun _ _ ↦ trivial) fun _ _ ↦ ends_pure
      ⟨⟨rfl, rfl, rfl⟩, hs.valid, hs.satisfiable, hs.closed, hs.names, hs.threads, hs.memory⟩

end

/-! ## Constraints and inputs -/

/-- The state `s'` is `s` where `e` holds. -/
structure Narrows (K : MemoryObject → Prop) (e : Expr) (s s' : State) : Prop where
  grounded : s'.Grounded K
  id_eq : s'.id = s.id
  arrays_eq : s'.arrays = s.arrays
  solves_iff : ∀ a, Inputs.all.Solves a s'.constraints ↔ Inputs.all.Solves a s.constraints ∧ a.val e ≠ 0

theorem Narrows.like_le (h : s.Narrows K e s') : s'.like ≤ s.like := fun a b hab ↦ by
  obtain ⟨hsame, ha, hb⟩ := hab
  rw [h.arrays_eq] at hsame
  exact ⟨hsame, ((h.solves_iff a).1 ha).1, ((h.solves_iff b).1 hb).1⟩

section

variable (hs : s.Grounded K)
include hs

theorem Grounded.meets_addConstraint (he : e.Determined s.like) (hw : e.width = 1)
    (hsat : ∃ a, Inputs.all.Solves a s.constraints ∧ a.val e ≠ 0) :
    Meets (s.addConstraint e) (s.Narrows K e) := by
  obtain ⟨c, hc, hvalid, hsolves⟩ := hs.valid.exists_add ⟨he.wellFormed, hw⟩ hsat
  refine ends_of_eq (a := { s with constraints := c }) (by rw [State.addConstraint, hc]; rfl) ?_
  have hle : ({ s with constraints := c } : State).like ≤ s.like := fun a b hab ↦
    ⟨hab.1, ((hsolves a).1 hab.2.1).1, ((hsolves b).1 hab.2.2).1⟩
  refine ⟨⟨hvalid, ?_, fun a b hb hsame ha ↦ ?_, hs.names, fun t ht ↦ (hs.threads t ht).mono hle,
    hs.memory.mono hle⟩, rfl, rfl, hsolves⟩
  · obtain ⟨a, ha⟩ := hsat
    exact ⟨a, (hsolves a).2 ha⟩
  · obtain ⟨ha, hne⟩ := (hsolves a).1 ha
    have hb := hs.closed hb hsame ha
    exact (hsolves b).2 ⟨hb, he.val_eq (L := s.like) ⟨hsame, ha, hb⟩ ▸ hne⟩

theorem Grounded.addSymbolic {m : AddressSpace} {A : NamedArray} (object : MemoryObject)
    (hm : m.Determined (.on (s.arrays ++ [A]) s.constraints) K)
    (hfresh : A.name ∉ s.arrays.map (·.name)) :
    (({ s with memory := m } : State).addSymbolic object A).Grounded K := by
  have harrays : (({ s with memory := m } : State).addSymbolic object A).arrays = s.arrays ++ [A] := by
    simp [State.addSymbolic, arrays]
  have hsame : ∀ {a b : Assignment}, a.SameOn (s.arrays ++ [A]) b → a.SameOn s.arrays b :=
    fun h B hB ↦ h B (List.mem_append_left _ hB)
  have hlike : (({ s with memory := m } : State).addSymbolic object A).like =
      .on (s.arrays ++ [A]) s.constraints := by rw [like, harrays]; rfl
  have hle : Likeness.on (s.arrays ++ [A]) s.constraints ≤ s.like := fun a b hab ↦ ⟨hsame hab.1, hab.2⟩
  refine ⟨hs.valid, hs.satisfiable, ?_, ?_, ?_, ?_⟩
  · rw [harrays]
    exact fun a b hb h ha ↦ hs.closed hb (hsame h) ha
  · rw [harrays, List.map_append, List.map_singleton]
    refine List.nodup_append.2 ⟨hs.names, by simp, fun n hn n' hn' ↦ ?_⟩
    rintro rfl
    obtain rfl := List.mem_singleton.1 hn'
    exact hfresh hn
  · rw [hlike]
    exact fun t ht ↦ (hs.threads t ht).mono hle
  · rw [hlike]
    exact hm

end

/-! ## Merging -/

section

variable {S T : Likeness} {c : Expr} (h : L.Splits S T c)
include h

theorem meets_mergeFrame {f g : Frame} (hf : f.Determined S) (hg : g.Determined T) :
    Meets (mergeFrame c f g) (Frame.Determined L) := by
  refine ends_bind (ends_mapM_array (Q := fun o ↦ ∀ e, o = some e → e.Determined L) ?_)
    fun locals hlocals ↦ ends_pure fun e he ↦ hlocals _ he e rfl
  rintro ⟨x?, y?⟩ hxy
  refine ends_true_iff.2 ?_
  rintro _ he? e rfl
  obtain ⟨hnone, hpicks⟩ := mergeLocal_eq_ok he?
  have hsome := mt hnone.2 (by simp)
  simp only [not_or, not_exists, not_and, Decidable.not_not] at hsome
  obtain ⟨x, rfl⟩ := Option.ne_none_iff_exists'.1 hsome.1
  obtain ⟨y, rfl⟩ := Option.ne_none_iff_exists'.1 hsome.2.1
  obtain ⟨e', he', hp⟩ := hpicks x y rfl rfl (hsome.2.2 x y rfl rfl)
  obtain rfl := Option.some.inj he'
  exact h.picks hp (hf x (Array.of_mem_zip hxy).1) (hg y (Array.of_mem_zip hxy).2)

theorem meets_mergeThread {t u : Thread} (ht : t.Determined S) (hu : u.Determined T) :
    Meets (mergeThread c t u) (Thread.Determined L) := by
  refine ends_bind (ends_mapM (Q := Frame.Determined L) ?_) fun stack hstack ↦ ends_pure hstack
  rintro ⟨f, g⟩ hfg
  exact meets_mergeFrame h (ht f (List.of_mem_zip hfg).1) (hu g (List.of_mem_zip hfg).2)

theorem meets_mergeMemory {m n : AddressSpace} (hm : m.Determined S K) (hn : n.Determined T K')
    (hlength : m.toList.length = n.toList.length) :
    Meets ((m.toList.zip n.toList).foldlM (fun m (x, y) ↦ mergeContents c m x y) m)
      (AddressSpace.Determined L K) := by
  refine ends_true_iff.2 fun memory hmemory ↦ ?_
  have hm' : ∀ x ∈ m.toList, x.Determined S ∧ K x.object := by
    intro x hx
    obtain ⟨p, hp, rfl⟩ := List.mem_map.1 hx
    exact hm.contents p hp
  have hn' : ∀ x ∈ n.toList, x.Determined T := by
    intro x hx
    obtain ⟨p, hp, rfl⟩ := List.mem_map.1 hx
    exact (hn.contents p hp).1
  have hentries : m.entries = [] ++ m.toList.map fun x ↦ (x.object.key, x) := by
    rw [List.nil_append, AddressSpace.toList_eq, List.map_map]
    refine (List.map_id _).symm.trans (List.map_congr_left fun p hp ↦ ?_)
    exact Prod.ext (hm.keyed p hp) rfl
  obtain ⟨zs, hzs, hsorted, hresult⟩ := entries_of_foldlM_mergeContents h.wellFormed
    (fun x hx ↦ (hm' x hx).1.formed) (fun y hy ↦ (hn' y hy).formed) hlength hm.sorted hentries hmemory
  have hz : ∀ z ∈ zs, z.Determined L ∧ K z.object := by
    intro z hz
    obtain ⟨i, hi, rfl⟩ := List.mem_iff_getElem.1 hz
    have hix : i < m.toList.length := hzs.left_length ▸ hi
    have hiy : i < n.toList.length := hlength ▸ hix
    have hmerges := hzs.related i _ _ _ (List.getElem?_eq_getElem hix) (List.getElem?_eq_getElem hiy)
      (List.getElem?_eq_getElem hi)
    have hx := hm' _ (List.getElem_mem hix)
    exact ⟨h.merges hmerges hx.1 (hn' _ (List.getElem_mem hiy)), hmerges.object_eq ▸ hx.2⟩
  rw [List.nil_append] at hresult
  refine ⟨hsorted, fun p hp ↦ ?_, fun p hp ↦ ?_⟩
  · rw [hresult] at hp
    obtain ⟨z, -, rfl⟩ := List.mem_map.1 hp
    rfl
  · rw [hresult] at hp
    obtain ⟨z, hmem, rfl⟩ := List.mem_map.1 hp
    exact hz z hmem

end

/-- The state `m` has the solutions of `s` and of `t`. -/
structure Covers (K : MemoryObject → Prop) (s t m : State) : Prop where
  grounded : m.Grounded K
  id_eq : m.id = s.id
  arrays_eq : m.arrays = s.arrays ∧ m.arrays = t.arrays
  solves_iff : ∀ a, Inputs.all.Solves a m.constraints ↔
    Inputs.all.Solves a s.constraints ∨ Inputs.all.Solves a t.constraints

theorem like_of_solves_iff {m : State} (hs : s.constraints.ClosedOn s.arrays)
    (ht : t.constraints.ClosedOn t.arrays) (harrays : m.arrays = s.arrays ∧ m.arrays = t.arrays)
    (hsolves : ∀ a, Inputs.all.Solves a m.constraints ↔
      Inputs.all.Solves a s.constraints ∨ Inputs.all.Solves a t.constraints)
    {a b : Assignment} (hab : m.like.like a b) :
    (Inputs.all.Solves a s.constraints ↔ Inputs.all.Solves b s.constraints) ∧
      (Inputs.all.Solves a s.constraints → s.like.like a b) ∧
      (¬Inputs.all.Solves a s.constraints → t.like.like a b) := by
  obtain ⟨hsame, ha, hb⟩ := hab
  have hsame' : a.SameOn s.arrays b := harrays.1 ▸ hsame
  have hsame'' : a.SameOn t.arrays b := harrays.2 ▸ hsame
  have hiff : Inputs.all.Solves a s.constraints ↔ Inputs.all.Solves b s.constraints :=
    ⟨hs hb.possible hsame', hs ha.possible hsame'.symm⟩
  refine ⟨hiff, fun h ↦ ⟨hsame', h, hiff.1 h⟩, fun h ↦ ?_⟩
  have hat := ((hsolves a).1 ha).resolve_left h
  exact ⟨hsame'', hat, ht hb.possible hsame'' hat⟩

theorem Grounded.meets_merge (hs : s.Grounded K) (ht : t.Grounded K') :
    Meets (s.merge t) fun r ↦ ∀ m, r = some m → s.Covers K t m := by
  refine ends_true_iff.2 ?_
  rintro _ hmerge m rfl
  obtain ⟨hvalid, hsat, -⟩ := (hs.sound.ends_merge ht.sound).of_eq hmerge m rfl
  unfold merge at hmerge
  split at hmerge
  · rename_i hmergeable
    simp only [mergeable, Bool.and_eq_true, beq_iff_eq, List.all_eq_true] at hmergeable
    obtain ⟨⟨⟨-, harrays⟩, hobjects⟩, -⟩ := hmergeable
    obtain ⟨inFirst, hfirst, h⟩ := bind_eq_ok.1 hmerge
    obtain ⟨inSecond, hsecond, h⟩ := bind_eq_ok.1 h
    obtain ⟨common, hcommon, h⟩ := bind_eq_ok.1 h
    obtain ⟨either, heither, h⟩ := bind_eq_ok.1 h
    obtain ⟨constraints, hconstraints, h⟩ := bind_eq_ok.1 h
    obtain ⟨threads, hthreads, h⟩ := bind_eq_ok.1 h
    obtain ⟨memory, hmemory, h⟩ := bind_eq_ok.1 h
    obtain rfl := Option.some.inj (pure_eq_ok.1 h)
    obtain ⟨hwf, hsolutions⟩ := constraints_of_merge hs.valid ht.valid hfirst hsecond hcommon heither
      hconstraints
    have hadmits {u : State} {a : Assignment} : u.Admits a ↔ a.HoldsAll u.constraints.toList :=
      Assignment.satisfies?_eq_true
    have hsolves : ∀ a, Inputs.all.Solves a constraints ↔
        Inputs.all.Solves a s.constraints ∨ Inputs.all.Solves a t.constraints := by
      intro a
      constructor
      · intro ha
        have hall := ((hsolutions a ha.free).1.1 fun c hc ↦
          (Assignment.holds_iff_val ha.free).1 (ha.holds c hc))
        exact hall.imp (fun h ↦ ⟨ha.possible, hadmits.1 h⟩) fun h ↦ ⟨ha.possible, hadmits.1 h⟩
      · intro ha
        have hfree : a.free = true := ha.elim (·.possible) (·.possible)
        refine ⟨hfree, fun c hc ↦ (Assignment.holds_iff_val hfree).2 ?_⟩
        exact (hsolutions a hfree).1.2 (ha.imp (hadmits.2 ·.holds) (hadmits.2 ·.holds)) c hc
    have hpick : ∀ {a}, Inputs.all.Solves a constraints →
        (a.val inFirst ≠ 0 ↔ Inputs.all.Solves a s.constraints) := by
      intro a ha
      obtain ⟨-, hyes, hno⟩ := hsolutions a ha.free
      refine ⟨fun hne ↦ ?_, fun h ↦ hyes (hadmits.2 h.holds)⟩
      obtain h | h := (hsolves a).1 ha
      · exact h
      · exact ⟨ha.possible, hadmits.1 (hno (hadmits.2 h.holds) hne)⟩
    have hsplits : (Likeness.on s.arrays constraints).Splits s.like t.like inFirst := by
      refine ⟨hwf, fun a b hab ↦ ?_⟩
      obtain ⟨hiff, hleft, hright⟩ := like_of_solves_iff (m := { s with constraints, threads, memory })
        hs.closed ht.closed ⟨rfl, harrays⟩ hsolves hab
      by_cases ha : Inputs.all.Solves a s.constraints
      · exact .inl ⟨(hpick hab.2.1).2 ha, (hpick hab.2.2).2 (hiff.1 ha), hleft ha⟩
      · refine .inr ⟨?_, ?_, hright ha⟩
        · exact Decidable.of_not_not (mt (hpick hab.2.1).1 ha)
        · exact Decidable.of_not_not (mt (hpick hab.2.2).1 (mt hiff.2 ha))
    have hlength : s.memory.toList.length = t.memory.toList.length := by
      simpa using congrArg List.length hobjects
    refine ⟨⟨hvalid, hsat trivial, fun a b hb hsame ha ↦ ?_, hs.names, ?_, ?_⟩, rfl, ⟨rfl, harrays⟩, hsolves⟩
    · exact (hsolves b).2 (((hsolves a).1 ha).imp (hs.closed hb hsame) (ht.closed hb (harrays ▸ hsame)))
    · refine (ends_mapM (F := fun _ ↦ True) ?_).of_eq hthreads
      rintro ⟨u, v⟩ huv
      exact meets_mergeThread hsplits (hs.threads u (List.of_mem_zip huv).1) (ht.threads v (List.of_mem_zip huv).2)
    · exact (meets_mergeMemory hsplits hs.memory ht.memory hlength).of_eq hmemory
  · cases hmerge

end State

end Symex
