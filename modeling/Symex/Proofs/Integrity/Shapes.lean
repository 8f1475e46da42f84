import Mathlib.Data.List.Nodup
import Symex.Executor.Run
import Symex.Proofs.Integrity.Lookups
import Symex.Proofs.Integrity.Validity
import Symex.Proofs.Pools

namespace Symex

open Checked

/-- A frame without the values of its registers. -/
structure FrameShape where
  function : FunctionId
  caller : Option CallSite
  registers : Nat
  /-- The objects that end with the frame. -/
  objects : List MemoryObject

structure ThreadShape where
  id : ThreadId
  stack : List FrameShape
  pc : Location
  prevPc : Location
  enabled : Bool

def ThreadShape.held (t : ThreadShape) : List MemoryObject := t.stack.flatMap (·.objects)

structure Shape where
  threads : List ThreadShape
  current : ThreadId
  nextThreadId : ThreadId
  /-- The objects that are bound, with the keys they are found by. -/
  objects : List (ObjectKey × MemoryObject)
  pool : AddressPool

/-- The objects that end with one of the threads. -/
def Shape.held (sh : Shape) : List MemoryObject := sh.threads.flatMap (·.held)

def Frame.shape (f : Frame) : FrameShape := ⟨f.function, f.caller, f.locals.size, f.objects⟩

def Thread.shape (t : Thread) : ThreadShape := ⟨t.id, t.stack.map (·.shape), t.pc, t.prevPc, t.enabled⟩

/-- The objects with their keys, without the contents. -/
def AddressSpace.outline (m : AddressSpace) : List (ObjectKey × MemoryObject) :=
  m.entries.map fun p ↦ (p.1, p.2.object)

def State.shape (s : State) : Shape :=
  ⟨s.threads.map (·.shape), s.current, s.nextThreadId, s.memory.outline, s.pool⟩

/-! ## Memory -/

def Global.padded (g : Global) : Nat :=
  max g.size 1 + (Executor.globalAlignment - max g.size 1 % Executor.globalAlignment) %
    Executor.globalAlignment

def Program.globalsEnd (p : Program) : Nat :=
  p.globals.toList.foldl (fun address g ↦ address + g.padded) Executor.globalBase

def Program.GlobalsFit (p : Program) : Prop := p.globalsEnd ≤ AddressPool.initial.next

instance (p : Program) : Decidable p.GlobalsFit :=
  inferInstanceAs (Decidable (p.globalsEnd ≤ AddressPool.initial.next))

/-- The first address after the object. An empty object takes one address. -/
def MemoryObject.stop (o : MemoryObject) : Nat := o.address + max o.size 1

def MemoryObject.Apart (o o' : MemoryObject) : Prop := o.stop ≤ o'.address ∨ o'.stop ≤ o.address

/-- The objects that are bound are those that they should be. Those on the stack are held by frames, each of
them once. Ids are below `bound`, and addresses come from the pool, but for those of globals. -/
structure Owned (p : Program) (bound : Nat) (held : List MemoryObject)
    (objects : List (ObjectKey × MemoryObject)) (pool : AddressPool) : Prop where
  keyed : ∀ e ∈ objects, e.1 = e.2.key
  ids : (objects.map (·.2.id)).Nodup
  id_lt : ∀ e ∈ objects, e.2.id < bound
  locals : held.Perm ((objects.map (·.2)).filter (·.isLocal))
  pooled : ∀ e ∈ objects, e.2.isGlobal = false → AddressPool.initial.next ≤ e.2.address ∧
    e.2.stop ≤ pool.next
  limit_eq : pool.limit = AddressPool.initial.limit
  next_ge : AddressPool.initial.next ≤ pool.next
  next_le : pool.next ≤ alignUp pool.limit
  globals : p.GlobalsFit → ∀ e ∈ objects, e.2.isGlobal = true → e.2.stop ≤ AddressPool.initial.next
  apart : p.GlobalsFit → (objects.map (·.2)).Pairwise MemoryObject.Apart

namespace Owned

variable {p : Program} {n n' : Nat} {held held' : List MemoryObject} {e : ObjectKey × MemoryObject}
  {objects objects' : List (ObjectKey × MemoryObject)} {pool : AddressPool} {o : MemoryObject}

theorem mono (h : Owned p n held objects pool) (hn : n ≤ n') : Owned p n' held objects pool :=
  { h with id_lt := fun e he ↦ Nat.lt_of_lt_of_le (h.id_lt e he) hn }

theorem perm (h : Owned p n held objects pool) (hheld : held'.Perm held) (hobjects : objects'.Perm objects) :
    Owned p n held' objects' pool where
  keyed e he := h.keyed e (hobjects.mem_iff.1 he)
  ids := ((hobjects.map _).nodup_iff).2 h.ids
  id_lt e he := h.id_lt e (hobjects.mem_iff.1 he)
  locals := hheld.trans (h.locals.trans ((hobjects.map _).filter _).symm)
  pooled e he := h.pooled e (hobjects.mem_iff.1 he)
  limit_eq := h.limit_eq
  next_ge := h.next_ge
  next_le := h.next_le
  globals hfit e he := h.globals hfit e (hobjects.mem_iff.1 he)
  apart hfit := ((hobjects.map _).pairwise_iff Or.symm).2 (h.apart hfit)

theorem mem_of_held (h : Owned p n held objects pool) (ho : o ∈ held) :
    o.isLocal = true ∧ (o.key, o) ∈ objects := by
  obtain ⟨ho, hlocal⟩ := List.mem_filter.1 (h.locals.mem_iff.1 ho)
  obtain ⟨e, he, rfl⟩ := List.mem_map.1 ho
  exact ⟨hlocal, h.keyed e he ▸ he⟩

theorem tail (h : Owned p n held (e :: objects) pool)
    (hlocals : held'.Perm ((objects.map (·.2)).filter (·.isLocal))) : Owned p n held' objects pool where
  keyed e he := h.keyed e (List.mem_cons_of_mem _ he)
  ids := (List.nodup_cons.1 h.ids).2
  id_lt e he := h.id_lt e (List.mem_cons_of_mem _ he)
  locals := hlocals
  pooled e he := h.pooled e (List.mem_cons_of_mem _ he)
  limit_eq := h.limit_eq
  next_ge := h.next_ge
  next_le := h.next_le
  globals hfit e he := h.globals hfit e (List.mem_cons_of_mem _ he)
  apart hfit := (List.pairwise_cons.1 (h.apart hfit)).2

theorem unbind (h : Owned p n held ((o.key, o) :: objects) pool) (ho : o.isLocal = false) :
    Owned p n held objects pool :=
  h.tail (by simpa [List.filter_cons, ho] using h.locals)

theorem release (h : Owned p n (o :: held) ((o.key, o) :: objects) pool) :
    Owned p n held objects pool := by
  have hlocal := (h.mem_of_held (o := o) (by simp)).1
  have hlocals := h.locals
  rw [List.map_cons, List.filter_cons, if_pos hlocal] at hlocals
  exact h.tail hlocals.cons_inv

theorem exists_release {os : List MemoryObject} (h : Owned p n (os ++ held) objects pool) :
    ∃ rest, objects.Perm (os.map (fun o ↦ (o.key, o)) ++ rest) ∧ Owned p n held rest pool := by
  induction os generalizing objects with
  | nil => exact ⟨objects, .rfl, h⟩
  | cons o os ih =>
    obtain ⟨before, after, hobjects⟩ := List.append_of_mem (h.mem_of_held (o := o) (by simp)).2
    have hmiddle : objects.Perm ((o.key, o) :: (before ++ after)) := hobjects ▸ List.perm_middle
    obtain ⟨rest, hrest, howned⟩ := ih (h.perm .rfl hmiddle.symm).release
    exact ⟨rest, hmiddle.trans (hrest.cons _), howned⟩

end Owned

/-- There is room for the object, which is new. -/
structure MemoryObject.Fits (p : Program) (o : MemoryObject) (objects : List (ObjectKey × MemoryObject))
    (pool : AddressPool) : Prop where
  isGlobal_eq : o.isGlobal = false
  address_ge : AddressPool.initial.next ≤ o.address
  stop_le : o.stop ≤ pool.next
  fresh : ∀ e ∈ objects, e.2.id < o.id
  above : p.GlobalsFit → ∀ e ∈ objects, e.2.stop ≤ o.address

section

variable {p : Program} {n : Nat} {held : List MemoryObject} {objects objects' : List (ObjectKey × MemoryObject)}
  {pool : AddressPool} {o : MemoryObject}

theorem MemoryObject.Fits.subset (h : o.Fits p objects pool) (hsub : ∀ e ∈ objects', e ∈ objects) :
    o.Fits p objects' pool :=
  { h with
    fresh := fun e he ↦ h.fresh e (hsub e he)
    above := fun hfit e he ↦ h.above hfit e (hsub e he) }

theorem Owned.bind (h : Owned p n held objects pool) (ho : o.Fits p objects pool) (hid : o.id < n) :
    Owned p n (if o.isLocal then o :: held else held) ((o.key, o) :: objects) pool where
  keyed := List.forall_mem_cons.2 ⟨rfl, h.keyed⟩
  ids := by
    refine List.nodup_cons.2 ⟨fun hmem ↦ ?_, h.ids⟩
    obtain ⟨e, he, heq⟩ := List.mem_map.1 hmem
    exact Nat.ne_of_lt (ho.fresh e he) heq
  id_lt := List.forall_mem_cons.2 ⟨hid, h.id_lt⟩
  locals := by
    rw [List.map_cons, List.filter_cons]
    split
    · exact h.locals.cons _
    · exact h.locals
  pooled := List.forall_mem_cons.2 ⟨fun _ ↦ ⟨ho.address_ge, ho.stop_le⟩, h.pooled⟩
  limit_eq := h.limit_eq
  next_ge := h.next_ge
  next_le := h.next_le
  globals hfit := List.forall_mem_cons.2
    ⟨fun hglobal ↦ (nomatch ho.isGlobal_eq.symm.trans hglobal), h.globals hfit⟩
  apart hfit := by
    refine List.pairwise_cons.2 ⟨fun o' ho' ↦ ?_, h.apart hfit⟩
    obtain ⟨e, he, rfl⟩ := List.mem_map.1 ho'
    exact .inr (ho.above hfit e he)

end

theorem AddressPool.limit_initial : AddressPool.initial.limit + allocationAlignment ≤ wordLimit := by
  decide

theorem Owned.reserve {p : Program} {n : Nat} {held : List MemoryObject}
    {objects : List (ObjectKey × MemoryObject)} {pool pool' : AddressPool} {allocator allocator' : Allocator}
    {size : Nat} {isLocal : Bool} {site : AllocationSite} {name : String} {o : MemoryObject}
    (h : Owned p n held objects pool) (hn : n ≤ allocator.nextId)
    (ho : allocator.allocate pool size isLocal false site name = some (o, allocator', pool')) :
    o.id = allocator.nextId ∧ allocator'.nextId = o.id + 1 ∧ o.isLocal = isLocal ∧ o.Fits p objects pool' ∧
      Owned p (o.id + 1) held objects pool' := by
  unfold Allocator.allocate at ho
  split at ho
  · cases ho
  · obtain ⟨⟨address, pool''⟩, hreserve, heq⟩ := Option.map_eq_some_iff.1 ho
    unfold AddressPool.reserve at hreserve
    dsimp only at hreserve
    split at hreserve
    · cases hreserve
    · rename_i hroom
      obtain ⟨rfl, rfl⟩ := Prod.mk.inj (Option.some.inj hreserve)
      obtain ⟨rfl, rfl, rfl⟩ := by simpa using heq
      have hlimit := h.limit_eq
      have hfar := AddressPool.limit_initial
      have hstop : pool.next + max size 1 ≤ alignUp (pool.next + max size 1) := le_alignUp (by omega)
      have hnext : pool.next ≤ alignUp (pool.next + max size 1) := by omega
      refine ⟨rfl, rfl, rfl, ⟨rfl, h.next_ge, hstop, fun e he ↦ Nat.lt_of_lt_of_le (h.id_lt e he) hn,
        fun hfit e he ↦ ?_⟩, { h.mono (Nat.le_succ_of_le hn) with
          pooled := fun e he hglobal ↦ ?_, limit_eq := hlimit, next_ge := Nat.le_trans h.next_ge hnext,
          next_le := alignUp_mono (Nat.le_of_not_lt fun hlt ↦ hroom (.inr hlt)) }⟩
      · cases hglobal : e.2.isGlobal with
        | true => exact Nat.le_trans (h.globals hfit e he hglobal) h.next_ge
        | false => exact (h.pooled e he hglobal).2
      · obtain ⟨hge, hle⟩ := h.pooled e he hglobal
        exact ⟨hge, Nat.le_trans hle hnext⟩

/-! ## Changes to memory -/

namespace AddressSpace

variable {m : AddressSpace} {o : MemoryObject} {x : ObjectState}

def Ascending (objects : List (ObjectKey × MemoryObject)) : Prop :=
  objects.Pairwise fun e e' ↦ compare e.1 e'.1 = .lt

theorem ascending_outline : Ascending m.outline ↔ m.objects.Sorted := by
  rw [Ascending, outline, List.pairwise_map]
  rfl

theorem mem_outline_of_find? (hm : m.objects.Sorted) (h : m.find? o = some x) :
    (o.key, x.object) ∈ m.outline :=
  List.mem_map_of_mem (f := fun p : Entry ↦ (p.1, p.2.object)) ((AvlMap.get?_eq_some hm).1 h)

theorem exists_find? (hm : m.objects.Sorted) {o' : MemoryObject} (h : (o.key, o') ∈ m.outline) :
    ∃ x, m.find? o = some x ∧ x.object = o' := by
  obtain ⟨⟨key, x⟩, hp, heq⟩ := List.mem_map.1 h
  obtain ⟨rfl, rfl⟩ := Prod.mk.inj heq
  exact ⟨x, (AvlMap.get?_eq_some hm).2 hp, rfl⟩

theorem object_mem_outline (h : x ∈ m.toList) : ∃ key, (key, x.object) ∈ m.outline := by
  obtain ⟨p, hp, rfl⟩ := List.mem_map.1 h
  exact ⟨p.1, List.mem_map_of_mem hp⟩

theorem found_bind (hm : m.objects.Sorted) (hfresh : ∀ e ∈ m.outline, e.1 ≠ x.object.key) :
    Found (m.bind x) fun m' ↦ m'.objects.Sorted ∧
      m'.outline.Perm ((x.object.key, x.object) :: m.outline) := by
  have hnone : m.objects.get? x.object.key = none := by
    cases hget : m.objects.get? x.object.key with
    | none => rfl
    | some y => exact (hfresh _ (mem_outline_of_find? hm hget) rfl).elim
  refine ends_bind (ends_demand (P := fun _ ↦ True) (fun h ↦ (h ?_).elim) fun _ ↦ trivial) fun _ _ ↦
    ends_pure ⟨hm.insert, (AvlMap.perm_insert hm hnone).map _⟩
  rw [hnone, Option.isNone_none]

theorem found_unbind (hm : m.objects.Sorted) (ho : (o.key, o) ∈ m.outline) :
    Found (m.unbind o) fun m' ↦ m'.objects.Sorted ∧ m.outline.Perm ((o.key, o) :: m'.outline) := by
  obtain ⟨x, hx, hobject⟩ := exists_find? hm ho
  rw [unbind_eq]
  refine ends_bind (ends_demand (P := fun _ ↦ True) (fun h ↦ (h ?_).elim) fun _ ↦ trivial) fun _ _ ↦
    ends_pure ⟨hm.erase, ?_⟩
  · rw [hx, Option.isSome_some]
  · have hperm := (AvlMap.perm_erase hm hx).map fun p : Entry ↦ (p.1, p.2.object)
    rwa [List.map_cons, hobject] at hperm

theorem found_unbindAll (hm : m.objects.Sorted) {os : List MemoryObject}
    {rest : List (ObjectKey × MemoryObject)} (hos : m.outline.Perm (os.map (fun o ↦ (o.key, o)) ++ rest)) :
    Found (os.foldlM (·.unbind) m) fun m' ↦ m'.objects.Sorted ∧ m'.outline.Perm rest := by
  induction os generalizing m with
  | nil => exact ends_pure ⟨hm, hos⟩
  | cons o os ih =>
    rw [List.foldlM_cons]
    refine ends_bind (found_unbind hm (hos.mem_iff.2 (by simp))) fun m' hm' ↦ ih hm'.1 ?_
    exact (hm'.2.symm.trans hos).cons_inv

theorem found_modify (hm : m.objects.Sorted) {f : ObjectState → Checked ObjectState}
    (ho : ∃ o', (o.key, o') ∈ m.outline) (hf : ∀ x, Found (f x) fun y ↦ y.object = x.object) :
    Found (m.modify o f) fun m' ↦ m'.outline = m.outline := by
  obtain ⟨o', ho⟩ := ho
  obtain ⟨x, hx, hobject⟩ := exists_find? hm ho
  unfold modify
  rw [show m.objects.get? o.key = some x from hx]
  refine ends_bind (hf { x with owner := m.epoch }) fun y hy ↦ ends_pure ?_
  rw [outline, outline, entries, entries, AvlMap.toList_modify hm, Entries.replaceAt, List.map_map]
  refine List.map_congr_left fun p hp ↦ ?_
  dsimp only [Function.comp]
  split
  · rename_i heq
    have hkey : p.1 = o.key := Std.LawfulEqOrd.eq_of_compare heq
    have hpx : (o.key, p.2) ∈ m.objects.toList := hkey ▸ hp
    have hget : m.find? o = some p.2 := (AvlMap.get?_eq_some hm).2 hpx
    obtain rfl : x = p.2 := Option.some.inj (hx.symm.trans hget)
    rw [hy]
  · rfl

end AddressSpace

/-! ## Stacks -/

/-- The call returns to a frame that goes on after it. -/
structure CallSite.Returns (p : Program) (site : CallSite) (below : FrameShape) : Prop where
  function_eq : site.call.function = below.function
  call : ∃ callee arguments, p.instruction? site.call = some (.call callee arguments site.destination)
  next : (p.instruction? site.call.next).isSome
  destination_lt : ∀ d, site.destination = some d → d < below.registers

/-- The frame has as many registers as its function. -/
def FrameShape.Sized (p : Program) (f : FrameShape) : Prop :=
  ∃ function, p.functions[f.function]? = some function ∧ f.registers = function.registers

def Linked (p : Program) : List FrameShape → Prop
  | [] => False
  | [bottom] => bottom.Sized p ∧ bottom.caller = none
  | top :: below :: rest =>
    top.Sized p ∧ (∃ site, top.caller = some site ∧ site.Returns p below) ∧ Linked p (below :: rest)

section

variable {p : Program} {top top' : FrameShape} {rest : List FrameShape}

theorem Linked.sized (h : Linked p (top :: rest)) : top.Sized p := by
  cases rest with
  | nil => exact h.1
  | cons below rest => exact h.1

theorem Linked.push {site : CallSite} (h : Linked p (top :: rest)) (htop' : top'.Sized p)
    (hcaller : top'.caller = some site) (hsite : site.Returns p top) : Linked p (top' :: top :: rest) :=
  ⟨htop', ⟨site, hcaller, hsite⟩, h⟩

theorem Linked.pop {site : CallSite} (h : Linked p (top :: rest)) (hcaller : top.caller = some site) :
    ∃ below rest', rest = below :: rest' ∧ site.Returns p below ∧ Linked p (below :: rest') := by
  cases rest with
  | nil => exact nomatch h.2.symm.trans hcaller
  | cons below rest' =>
    obtain ⟨-, ⟨site', hsite', hreturns⟩, hrest⟩ := h
    obtain rfl : site' = site := Option.some.inj (hsite'.symm.trans hcaller)
    exact ⟨below, rest', rfl, hreturns, hrest⟩

theorem Linked.replace (h : Linked p (top :: rest)) (hfunction : top'.function = top.function)
    (hcaller : top'.caller = top.caller) (hregisters : top'.registers = top.registers) :
    Linked p (top' :: rest) := by
  have hsized : top'.Sized p := by
    rw [FrameShape.Sized, hfunction, hregisters]
    exact h.sized
  cases rest with
  | nil => exact ⟨hsized, hcaller.trans h.2⟩
  | cons below rest => exact ⟨hsized, hcaller ▸ h.2.1, h.2.2⟩

theorem Linked.exists_function {stack : List FrameShape} (h : Linked p stack) {f : FrameShape}
    (hf : f ∈ stack) : ∃ function, p.functions[f.function]? = some function := by
  induction stack with
  | nil => cases hf
  | cons top rest ih =>
    obtain rfl | hf := List.mem_cons.1 hf
    · obtain ⟨function, hfunction, -⟩ := h.sized
      exact ⟨function, hfunction⟩
    · cases rest with
      | nil => cases hf
      | cons below rest => exact ih h.2.2 hf

end

namespace ThreadShape

def In (p : Program) (function : FunctionId) (t : ThreadShape) : Prop :=
  ∃ top rest, t.stack = top :: rest ∧ top.function = function ∧ Linked p (top :: rest)

def Placed (p : Program) (t : ThreadShape) : Prop :=
  t.In p t.pc.function ∧ (p.instruction? t.pc).isSome

/-- The thread executes the instruction at `l`. -/
structure Midway (p : Program) (l : Location) (t : ThreadShape) : Prop where
  inside : t.In p l.function
  enabled : t.enabled = true
  prevPc_eq : t.prevPc = l
  pc_eq : t.pc = l.next

def push (t : ThreadShape) (f : FrameShape) : ThreadShape := { t with stack := f :: t.stack }

variable {p : Program} {t : ThreadShape} {l : Location}

theorem In.linked {function : FunctionId} (h : t.In p function) : Linked p t.stack := by
  obtain ⟨top, rest, hstack, -, hlinked⟩ := h
  rwa [hstack]

theorem Midway.placed (h : t.Midway p l) (hnext : (p.instruction? l.next).isSome) : t.Placed p := by
  rw [Placed, h.pc_eq]
  exact ⟨h.inside, hnext⟩

end ThreadShape

/-! ## Threads -/

namespace Shape

def setThread (sh : Shape) (t : ThreadShape) : Shape :=
  { sh with threads := sh.threads.map fun u ↦ if u.id = t.id then t else u }

/-- The current thread is as `P` says, and the other ones wait for their turn. -/
structure Threaded (p : Program) (P : ThreadShape → Prop) (sh : Shape) : Prop where
  nodup : (sh.threads.map (·.id)).Nodup
  id_lt : ∀ t ∈ sh.threads, t.id < sh.nextThreadId
  others : ∀ t ∈ sh.threads, t.id ≠ sh.current → t.Placed p
  current : ∃ t ∈ sh.threads, t.id = sh.current ∧ P t

/-- Any thread can be the next one to run. -/
structure Loose (p : Program) (sh : Shape) : Prop where
  nodup : (sh.threads.map (·.id)).Nodup
  id_lt : ∀ t ∈ sh.threads, t.id < sh.nextThreadId
  placed : ∀ t ∈ sh.threads, t.Placed p

def Controlled (p : Program) (sh : Shape) : Prop := sh.Threaded p fun t ↦ t.enabled = true ∧ t.Placed p

/-- The current thread executes the instruction at `l`. -/
def Midway (p : Program) (l : Location) (sh : Shape) : Prop := sh.Threaded p (·.Midway p l)

def Traceable (p : Program) (sh : Shape) : Prop :=
  ∀ t ∈ sh.threads, ∀ f ∈ t.stack, ∃ function, p.functions[f.function]? = some function

variable {p : Program} {P P' : ThreadShape → Prop} {sh : Shape} {t t' : ThreadShape} {l : Location}

theorem eq_of_id_eq (h : (sh.threads.map (·.id)).Nodup) (ht : t ∈ sh.threads) (ht' : t' ∈ sh.threads)
    (hid : t.id = t'.id) : t = t' :=
  List.inj_on_of_nodup_map h ht ht' hid

theorem setThread_self (h : (sh.threads.map (·.id)).Nodup) (ht : t ∈ sh.threads) : sh.setThread t = sh := by
  have hmap : (sh.threads.map fun u ↦ if u.id = t.id then t else u) = sh.threads.map id := by
    refine List.map_congr_left fun u hu ↦ ?_
    split
    · rename_i hid
      exact eq_of_id_eq h ht hu hid.symm
    · rfl
  rw [setThread, hmap, List.map_id]

theorem setThread_setThread (hid : t'.id = t.id) : (sh.setThread t).setThread t' = sh.setThread t' := by
  simp only [setThread, List.map_map]
  congr 1
  refine List.map_congr_left fun u _ ↦ ?_
  dsimp only [Function.comp]
  split
  · rename_i hu
    rw [if_pos hid.symm, if_pos (hu.trans hid.symm)]
  · rfl

theorem mem_setThread_self (ht : t ∈ sh.threads) (hid : t'.id = t.id) : t' ∈ (sh.setThread t').threads :=
  List.mem_map.2 ⟨t, ht, if_pos hid.symm⟩

theorem map_id_setThread (t : ThreadShape) : (sh.setThread t).threads.map (·.id) = sh.threads.map (·.id) := by
  rw [setThread, List.map_map]
  refine List.map_congr_left fun u _ ↦ ?_
  dsimp only [Function.comp]
  split
  · rename_i hid
    exact hid.symm
  · rfl

theorem exists_held (h : (sh.threads.map (·.id)).Nodup) (ht : t ∈ sh.threads) :
    ∃ rest, sh.held.Perm (t.held ++ rest) ∧
      (∀ t' : ThreadShape, t'.id = t.id → (sh.setThread t').held.Perm (t'.held ++ rest)) ∧
      (sh.threads.filter (·.id ≠ t.id)).flatMap (·.held) = rest := by
  obtain ⟨before, after, hthreads⟩ := List.append_of_mem ht
  rw [hthreads, List.map_append, List.map_cons, List.nodup_middle, List.nodup_cons, ← List.map_append] at h
  have hother : ∀ u ∈ before ++ after, u.id ≠ t.id := fun u hu hid ↦
    h.1 (hid ▸ List.mem_map_of_mem (f := ThreadShape.id) hu)
  have hperm : ∀ u : ThreadShape, ((before ++ u :: after).flatMap (·.held)).Perm
      (u.held ++ (before ++ after).flatMap (·.held)) := fun u ↦
    (List.perm_middle.flatMap_right _).trans (by rw [List.flatMap_cons])
  refine ⟨(before ++ after).flatMap (·.held), ?_, fun t' hid ↦ ?_, ?_⟩
  · rw [held, hthreads]
    exact hperm t
  · have hmap : ∀ {us : List ThreadShape}, (∀ u ∈ us, u.id ≠ t.id) →
        (us.map fun u ↦ if u.id = t'.id then t' else u) = us := by
      intro us hus
      refine (List.map_congr_left fun u hu ↦ ?_).trans (List.map_id us)
      exact if_neg (hid ▸ hus u hu)
    have hset : (sh.setThread t').threads = before ++ t' :: after := by
      rw [setThread, hthreads, List.map_append, List.map_cons, if_pos hid.symm,
        hmap fun u hu ↦ hother u (List.mem_append_left _ hu),
        hmap fun u hu ↦ hother u (List.mem_append_right _ hu)]
    rw [held, hset]
    exact hperm t'
  · have hfilter : sh.threads.filter (·.id ≠ t.id) = before ++ after := by
      rw [hthreads, List.filter_append, List.filter_cons_of_neg (by simp), ← List.filter_append,
        List.filter_eq_self]
      exact fun u hu ↦ by simpa using hother u hu
    rw [hfilter]

theorem Threaded.imp (h : sh.Threaded p P) (hP : ∀ t, P t → P' t) : sh.Threaded p P' := by
  obtain ⟨t, ht, hid, hPt⟩ := h.current
  exact { h with current := ⟨t, ht, hid, hP t hPt⟩ }

theorem Controlled.withObjects (h : sh.Controlled p) (objects : List (ObjectKey × MemoryObject)) :
    Controlled p { sh with objects } :=
  ⟨h.nodup, h.id_lt, h.others, h.current⟩

theorem Threaded.setThread (h : sh.Threaded p P) (hid : t.id = sh.current) (hP' : P' t) :
    (sh.setThread t).Threaded p P' := by
  obtain ⟨u, hu, huid, -⟩ := h.current
  have hmem : ∀ v ∈ (sh.setThread t).threads, v = t ∨ v ∈ sh.threads ∧ v.id ≠ sh.current := by
    intro v hv
    obtain ⟨w, hw, rfl⟩ := List.mem_map.1 hv
    split
    · exact .inl rfl
    · rename_i hne
      exact .inr ⟨hw, hid ▸ hne⟩
  refine ⟨(map_id_setThread t).symm ▸ h.nodup, fun v hv ↦ ?_, fun v hv hne ↦ ?_,
    t, mem_setThread_self hu (hid.trans huid.symm), hid, hP'⟩
  · obtain rfl | hv := hmem v hv
    · have := h.id_lt u hu
      rwa [huid, ← hid] at this
    · exact h.id_lt v hv.1
  · obtain rfl | hv := hmem v hv
    · exact (hne hid).elim
    · exact h.others v hv.1 hv.2

theorem Threaded.loose (h : sh.Threaded p P) (hP : ∀ t, P t → t.Placed p) : sh.Loose p := by
  obtain ⟨t, ht, hid, hPt⟩ := h.current
  refine ⟨h.nodup, h.id_lt, fun u hu ↦ ?_⟩
  by_cases huid : u.id = sh.current
  · exact eq_of_id_eq h.nodup hu ht (huid.trans hid.symm) ▸ hP t hPt
  · exact h.others u hu huid

theorem Controlled.loose (h : sh.Controlled p) : sh.Loose p := Threaded.loose h fun _ ht ↦ ht.2

theorem Midway.controlled (h : sh.Midway p l) (hnext : (p.instruction? l.next).isSome) : sh.Controlled p :=
  Threaded.imp h fun _ ht ↦ ⟨ht.enabled, ht.placed hnext⟩

theorem Loose.traceable (h : sh.Loose p) : sh.Traceable p := fun t ht _ hf ↦
  (h.placed t ht).1.linked.exists_function hf

theorem Midway.traceable (h : sh.Midway p l) : sh.Traceable p := by
  obtain ⟨t, ht, hid, hPt⟩ := h.current
  intro u hu f hf
  by_cases huid : u.id = sh.current
  · have hlinked := hPt.inside.linked
    rw [← eq_of_id_eq h.nodup hu ht (huid.trans hid.symm)] at hlinked
    exact hlinked.exists_function hf
  · exact (h.others u hu huid).1.linked.exists_function hf

end Shape

end Symex
