import Symex.Executor.Allocation
import Symex.Proofs.Attempts
import Symex.Proofs.Calls.Host
import Symex.Proofs.Merging.Bytes
import Symex.Proofs.Pools

namespace Symex

open Checked

/-! ## Contents -/

namespace ObjectState

variable {x y c : ObjectState} {i n : Nat}

/-- The first `n` bytes of `y` are those of `x`, and the others are those of `c`. -/
structure Copied (x c : ObjectState) (n : Nat) (y : ObjectState) : Prop where
  formed : y.Formed
  object_eq : y.object = c.object
  size_eq : y.size = c.size
  copied : ∀ i < n, ∃ e, x.readByte i = .ok e ∧ y.readByte i = .ok e
  kept : ∀ i < c.size, n ≤ i → y.readByte i = c.readByte i

theorem Copied.write8 {e : Expr} {z : ObjectState} (h : Copied x c n y) (hn : n < y.size) (hx : x.Formed)
    (he : x.readByte n = .ok e) (hz : y.write8 n e = .ok z) : Copied x c (n + 1) z := by
  obtain ⟨hwf, hw⟩ := hx.of_readByte he
  have hwritten := h.formed.write8 hwf hw hz
  refine ⟨hwritten.formed, hwritten.object_eq.trans h.object_eq, hwritten.size_eq.trans h.size_eq, fun i hi ↦ ?_,
    fun i hi hle ↦ ?_⟩
  · obtain rfl | hlt := Nat.eq_or_lt_of_le (Nat.le_of_lt_succ hi)
    · exact ⟨e, he, hwritten.readByte_self⟩
    · obtain ⟨e', he', hy⟩ := h.copied i hlt
      exact ⟨e', he', (hwritten.readByte_ne i (Nat.lt_trans hlt hn) (Nat.ne_of_lt hlt)).trans hy⟩
  · rw [hwritten.readByte_ne i (h.size_eq ▸ hi) (Nat.ne_of_gt hle), h.kept i hi (Nat.le_of_succ_le hle)]

theorem exists_copied (hx : x.Formed) (hc : c.Formed) :
    ∃ y, Exec.copyBytes x c = .ok y ∧ Copied x c (min x.size c.size) y := by
  have hloop : ∀ n ≤ min x.size c.size, ∃ y,
      (List.range n).foldlM (fun c i ↦ do c.write8 i (← x.readByte i)) c = (.ok y : Checked _) ∧
        Copied x c n y := by
    intro n hn
    induction n with
    | zero => exact ⟨c, rfl, hc, rfl, rfl, by simp, fun _ _ _ ↦ rfl⟩
    | succ n ih =>
      obtain ⟨hnx, hnc⟩ := Nat.lt_min.1 hn
      obtain ⟨y, hy, hcopied⟩ := ih (Nat.le_of_succ_le hn)
      obtain ⟨e, he⟩ := hx.exists_readByte hnx
      have hny : n < y.size := hcopied.size_eq ▸ hnc
      obtain ⟨z, hz⟩ := exists_write8 hny e
      refine ⟨z, ?_, hcopied.write8 hny hx he hz⟩
      rw [List.range_succ, List.foldlM_append, hy, ok_bind, List.foldlM_cons, he, ok_bind, hz, ok_bind]
      rfl
  exact hloop _ (Nat.le_refl _)

theorem formed_of_concrete {object : MemoryObject} {bytes : ByteArray} :
    ({ object, bytes } : ObjectState).Formed :=
  ⟨masked_of_none rfl rfl rfl, nofun, nofun, nofun⟩

theorem readByte_zeros {object : MemoryObject} (hi : i < object.size) :
    ({ object, bytes := Bytes.zeros object.size } : ObjectState).readByte i = .ok (.word 0 8) := by
  have hget := getElem?_pos (Bytes.zeros object.size) i (by rwa [Bytes.size_zeros])
  rw [readByte_eq, form_of_no_mask rfl, ok_bind]
  dsimp only
  rw [hget, Bytes.getElem?_zeros hget]
  rfl

/-- The contents have the bytes of the old ones, if there are any, as far as both go, and zeros from there on. -/
structure Renews (old : Option ObjectState) (y : ObjectState) : Prop where
  size_eq : y.size = y.object.size
  copied : ∀ x ∈ old, ∀ i < min x.object.size y.object.size, ∃ e, x.readByte i = .ok e ∧ y.readByte i = .ok e
  zero : ∀ i < y.object.size, (∀ x ∈ old, x.object.size ≤ i) → y.readByte i = .ok (.word 0 8)

theorem Renews.of_owner {old : Option ObjectState} (h : y.Renews old) (n : Nat) :
    ({ y with owner := n } : ObjectState).Renews old := ⟨h.size_eq, h.copied, h.zero⟩

theorem renews_zeros (object : MemoryObject) :
    ({ object, bytes := Bytes.zeros object.size } : ObjectState).Renews none :=
  ⟨Bytes.size_zeros _, nofun, fun _ hi _ ↦ readByte_zeros hi⟩

theorem exists_renews (object : MemoryObject) (hx : x.Formed) (hsize : x.size = x.object.size) :
    ∃ y, Exec.copyBytes x { object, bytes := Bytes.zeros object.size } = .ok y ∧ y.object = object ∧
      y.Renews (some x) := by
  have hzeros : ({ object, bytes := Bytes.zeros object.size } : ObjectState).size = object.size := Bytes.size_zeros _
  obtain ⟨y, hy, hcopied⟩ := exists_copied (c := { object, bytes := Bytes.zeros object.size }) hx formed_of_concrete
  have hobject : y.object = object := hcopied.object_eq
  refine ⟨y, hy, hobject, by rw [hcopied.size_eq, hobject, hzeros], ?_, fun i hi hle ↦ ?_⟩
  · rintro _ ⟨⟩ i hi
    exact hcopied.copied i (by rwa [hsize, hzeros, ← hobject])
  · rw [hobject] at hi
    rw [hcopied.kept i (by rwa [hzeros]) (Nat.le_trans (Nat.min_le_left ..) (hsize ▸ hle x rfl)), readByte_zeros hi]

end ObjectState

/-! ## What becomes of memory -/

namespace State

variable {s₀ s s' : State} {x y : ObjectState} {destination : Option Register}

/-- Null was put into the destination, if there is one, and memory is as it was. -/
structure Refused (s : State) (destination : Option Register) (s' : State) : Prop where
  result : ∀ r ∈ destination, s'.register? r = some (.pointer 0)
  memory_eq : s'.memory.toList = s.memory.toList

/-- The object is not bound any more, the others are as they were, and null was put into the destination. -/
structure Freed (s : State) (x : ObjectState) (destination : Option Register) (s' : State) : Prop where
  result : ∀ r ∈ destination, s'.register? r = some (.pointer 0)
  mem_iff : ∀ z, z ∈ s'.memory.toList ↔ z ∈ s.memory.toList ∧ z ≠ x

/-- A new object from the heap took the place of another one, if there is one, and its address was put into the
destination. The other objects are as they were. -/
structure Replaced (s : State) (old : Option ObjectState) (y : ObjectState) (destination : Option Register)
    (s' : State) : Prop where
  result : ∀ r ∈ destination, s'.register? r = some y.object.base
  heap : y.object.isLocal = false ∧ y.object.isGlobal = false
  address_pos : 0 < y.object.address
  fresh : s.memory.Fits y.object ∧ ∀ z ∈ s.memory.toList, z.object.id ≠ y.object.id
  mem_iff : ∀ z, z ∈ s'.memory.toList ↔ z = y ∨ z ∈ s.memory.toList ∧ old ≠ some z
  renews : y.Renews old

/-- The state can be given a new object: its memory is well formed, the pool holds addresses that no object has, and
the destination is a register. -/
structure Roomy (s : State) (nextId : Nat) (destination : Option Register) : Prop where
  registers : ∀ r ∈ destination, s.HasRegister r
  memory : s.memory.Addressable
  sizes : ∀ x ∈ s.memory.toList, x.size = x.object.size
  contents : ∀ x ∈ s.memory.toList, x.Formed
  ids : ∀ x ∈ s.memory.toList, x.object.id < nextId
  /-- No object of the heap is at the address of null. -/
  positive : ∀ x ∈ s.memory.toList, x.object.isGlobal = false → 0 < x.object.address
  next_pos : 0 < s.pool.next
  apart : ∀ q ∈ s.memory.entries, q.stop ≤ s.pool.next ∨ s.pool.limit ≤ q.1.address
  limit_le : s.pool.limit ≤ ObjectState.maxBytes

theorem HasRegister.of_threads_eq {r : Register} (h : s.HasRegister r) (hthreads : s'.threads = s.threads)
    (hcurrent : s'.current = s.current) : s'.HasRegister r := by
  obtain ⟨t, top, rest, ht, h⟩ := h
  refine ⟨t, top, rest, ?_, h⟩
  rw [thread?, hthreads, hcurrent]
  exact ht

theorem Roomy.of_sameData {n n' : Nat} (h : s.Roomy n destination) (hdata : s.SameData s') (hn : n ≤ n') :
    s'.Roomy n' destination := by
  have hlist : s'.memory.toList = s.memory.toList := congrArg AvlMap.values hdata.objects_eq
  have hentries : s'.memory.entries = s.memory.entries := congrArg AvlMap.toList hdata.objects_eq
  have hpool := hdata.pool_eq
  exact ⟨fun r hr ↦ (h.registers r hr).of_threads_eq hdata.threads_eq hdata.current_eq,
    h.memory.of_objects_eq hdata.objects_eq, hlist ▸ h.sizes, hlist ▸ h.contents,
    fun x hx ↦ Nat.lt_of_lt_of_le (h.ids x (hlist ▸ hx)) hn, hlist ▸ h.positive, hpool ▸ h.next_pos,
    hpool ▸ hentries ▸ h.apart, hpool ▸ h.limit_le⟩

theorem Refused.of_sameData (h : s.Refused destination s') (hdata : s₀.SameData s) : s₀.Refused destination s' :=
  ⟨h.result, h.memory_eq.trans (congrArg AvlMap.values hdata.objects_eq)⟩

theorem Freed.of_sameData (h : s.Freed x destination s') (hdata : s₀.SameData s) : s₀.Freed x destination s' :=
  have hlist : s.memory.toList = s₀.memory.toList := congrArg AvlMap.values hdata.objects_eq
  ⟨h.result, hlist ▸ h.mem_iff⟩

theorem Replaced.of_sameData {old : Option ObjectState} (h : s.Replaced old y destination s')
    (hdata : s₀.SameData s) : s₀.Replaced old y destination s' := by
  have hlist : s.memory.toList = s₀.memory.toList := congrArg AvlMap.values hdata.objects_eq
  have hentries : s.memory.entries = s₀.memory.entries := congrArg AvlMap.toList hdata.objects_eq
  refine ⟨h.result, h.heap, h.address_pos, ⟨fun q hq ↦ h.fresh.1 q (hentries ▸ hq), hlist ▸ h.fresh.2⟩,
    hlist ▸ h.mem_iff, h.renews⟩

theorem unbindAll_singleton {m : AddressSpace} {object : MemoryObject} (h : s.memory.unbind object = .ok m) :
    s.unbindAll [object] = .ok { s with memory := m } := by
  rw [unbindAll, List.foldlM_cons, h]
  rfl

theorem exists_write {r : Register} (h : s.HasRegister r) (v : Expr) :
    ∃ threads, s.write r v = .ok { s with threads } ∧ ({ s with threads } : State).register? r = some v := by
  obtain ⟨s₁, hs₁, -, -, hloaded⟩ := h.exists_write (.refl s) v
  obtain ⟨t, -, hs⟩ := bind_eq_ok.1 hs₁
  obtain ⟨u, -, hs⟩ := bind_eq_ok.1 hs
  obtain rfl := pure_eq_ok.1 hs
  exact ⟨_, hs₁, hloaded.register?_eq⟩

end State

namespace AddressSpace

variable {m : AddressSpace} {x : ObjectState}

theorem Addressable.exists_unbind (h : m.Addressable) (hx : x ∈ m.toList) :
    ∃ m₁, m.unbind x.object = .ok m₁ ∧ m₁.Ordered ∧ ∀ z, z ∈ m₁.toList ↔ z ∈ m.toList ∧ z ≠ x := by
  obtain ⟨q, hq, rfl⟩ := mem_toList.1 hx
  have hkey : (q.2.object.key, q.2) ∈ m.entries := h.spaced.keyed q hq ▸ hq
  obtain ⟨m₁, hm₁, -, hentries⟩ := h.spaced.exists_unbind hkey
  have hsub : m₁.entries.Sublist m.entries := hentries ▸ List.filter_sublist
  refine ⟨m₁, hm₁, ⟨h.spaced.sorted.sublist hsub, fun r hr ↦ h.spaced.keyed r (hsub.subset hr)⟩, fun z ↦ ?_⟩
  rw [mem_toList, mem_toList, hentries]
  constructor
  · rintro ⟨r, hr, rfl⟩
    obtain ⟨hr, hne⟩ := List.mem_filter.1 hr
    refine ⟨⟨r, hr, rfl⟩, fun heq ↦ ?_⟩
    rw [decide_eq_true_eq, ← h.address_eq hr, heq] at hne
    exact hne rfl
  · rintro ⟨⟨r, hr, rfl⟩, hne⟩
    refine ⟨r, List.mem_filter.2 ⟨hr, decide_eq_true fun heq ↦ hne ?_⟩, rfl⟩
    rw [h.spaced.eq_of_address_eq hr hq (heq.trans (h.address_eq hq))]

end AddressSpace

/-! ## Allocations -/

/-- From `g` to `f` data of the state changed, and ids of objects were given out. -/
def Focus.Internal {σ : Type} (g f : Focus σ) : Prop :=
  ∃ nextId threads memory pool, g.executor.allocator.nextId ≤ nextId ∧
    f = ⟨{ g.executor with allocator.nextId := nextId }, { g.state with threads, memory, pool }⟩

namespace Exec

variable {σ : Type} {F : Fault → Prop} {focus : Focus σ} {destination : Option Register}

theorem ends_writeResult_found {P : Except PathError Unit → Focus σ → Prop} {v : Expr}
    (hregisters : ∀ r ∈ destination, focus.state.HasRegister r)
    (h : ∀ threads, (∀ r ∈ destination, ({ focus.state with threads } : State).register? r = some v) →
      P (.ok ()) { focus with state := { focus.state with threads } }) :
    (writeResult destination v).Ends F focus P := by
  cases destination with
  | none => exact ends_pure (h focus.state.threads (by simp))
  | some r =>
    obtain ⟨threads, hwrite, hfound⟩ := State.exists_write (hregisters r rfl) v
    refine ends_updateState (Checked.ends_of_eq hwrite (h threads ?_))
    rintro _ ⟨⟩
    exact hfound

theorem ends_reserve {P : Except PathError (Option MemoryObject) → Focus σ → Prop} {n : Nat} {site : AllocationSite}
    {name : String} (hnone : P (.ok none) focus)
    (hsome : ∀ object pool, object.size = n → object.isLocal = false → object.isGlobal = false →
      object.id = focus.executor.allocator.nextId → focus.state.pool.reserve n = some (object.address, pool) →
      P (.ok (some object)) ⟨{ focus.executor with allocator.nextId := focus.executor.allocator.nextId + 1 },
        { focus.state with pool }⟩) : (reserve n false site name).Ends F focus P := by
  refine ends_bind_ok rfl ?_
  unfold Allocator.allocate
  by_cases hlarge : focus.executor.allocator.maxSize < n
  · rw [if_pos hlarge]
    exact ends_pure hnone
  · rw [if_neg hlarge]
    cases hreserve : focus.state.pool.reserve n with
    | none => exact ends_pure hnone
    | some q => exact ends_bind_ok rfl (ends_pure (hsome _ q.2 rfl rfl rfl rfl hreserve))

theorem ends_allocate {P : Except PathError Unit → Focus σ → Prop} {old : Option ObjectState} {n : Nat}
    (hroomy : focus.state.Roomy focus.executor.allocator.nextId destination)
    (hold : ∀ x ∈ old, x ∈ focus.state.memory.toList)
    (h : ∀ f, focus.Internal f → (focus.state.Refused destination f.state ∨
      ∃ y, y.object.size = n ∧ focus.state.Replaced old y destination f.state) → P (.ok ()) f) :
    (allocate n false destination (old.map (·.object))).Ends F focus P := by
  refine ends_bind_ok rfl (ends_seq (ends_reserve ?_ fun object pool hsize hlocal hglobal hid hreserve ↦ ?_))
  · refine ends_writeResult_found hroomy.registers fun threads hfound ↦ h _ ?_ (.inl ⟨hfound, rfl⟩)
    exact ⟨_, threads, _, _, Nat.le_refl _, rfl⟩
  · obtain ⟨haddress, hstop, -⟩ := AddressPool.reserve_eq_some hreserve
    have hmax := hroomy.limit_le
    have hpos := hroomy.next_pos
    have hfits : focus.state.memory.Fits object := fun q hq ↦ by
      have := hroomy.apart q hq
      omega
    have hids : ∀ x ∈ focus.state.memory.toList, x.object.id ≠ object.id := fun x hx ↦
      hid ▸ Nat.ne_of_lt (hroomy.ids x hx)
    -- once the contents are made the object is bound and its address is written
    have hbind : ∀ (c : ObjectState) (m : AddressSpace), c.object = object → c.Renews old → m.Ordered →
        (∀ z, z ∈ m.toList ↔ z ∈ focus.state.memory.toList ∧ old ≠ some z) → (do
          updateState fun s ↦ return { s with memory := ← s.memory.bind c }
          writeResult destination object.base : Exec σ Unit).Ends F
          ⟨{ focus.executor with allocator.nextId := focus.executor.allocator.nextId + 1 },
            { focus.state with pool, memory := m }⟩ P := by
      rintro c m rfl hrenews hordered hmem
      obtain ⟨m', hm', hmem'⟩ := hordered.exists_bind (x := c) fun z hz ↦ hids z ((hmem z).1 hz).1
      refine ends_seq (ends_updateState (Checked.ends_of_eq (a := { focus.state with pool, memory := m' }) ?_ ?_))
      · rw [hm']
        rfl
      · refine ends_writeResult_found (fun r hr ↦ (hroomy.registers r hr).of_threads_eq rfl rfl) fun threads hfound ↦
          h _ ⟨_, threads, m', pool, Nat.le_succ _, rfl⟩ (.inr ⟨{ c with owner := m.epoch }, hsize, hfound,
            ⟨hlocal, hglobal⟩, haddress ▸ hpos, ⟨hfits, hids⟩, fun z ↦ ?_, hrenews.of_owner _⟩)
        rw [hmem', hmem]
    refine ends_seq (ends_lift (Checked.ends_of_eq (ObjectState.zeroed_eq (by omega)) ?_))
    cases old with
    | none =>
      exact ends_bind_ok rfl (hbind _ focus.state.memory rfl (ObjectState.renews_zeros object)
        ⟨hroomy.memory.spaced.sorted, hroomy.memory.spaced.keyed⟩ (by simp))
    | some x =>
      have hx := hold x rfl
      obtain ⟨c, hc, hobject, hrenews⟩ := ObjectState.exists_renews object (hroomy.contents x hx)
        (hroomy.sizes x hx)
      obtain ⟨m, hm, hordered, hmem⟩ := hroomy.memory.exists_unbind hx
      have hfind : focus.state.memory.find? x.object = some x := hroomy.memory.find?_eq hx
      refine ends_bind_ok rfl ?_
      rw [hfind]
      refine ends_seq (ends_lift (Checked.ends_of_eq hc ?_))
      refine ends_seq (ends_updateState (Checked.ends_of_eq (a := { focus.state with pool, memory := m }) ?_ ?_))
      · exact State.unbindAll_singleton hm
      · exact ends_bind_ok rfl (hbind c m hobject hrenews hordered fun z ↦
          (hmem z).trans (and_congr_right fun _ ↦ not_congr ⟨fun h ↦ h ▸ rfl, fun h ↦ (Option.some.inj h).symm⟩))

theorem ends_unbind {P : Except PathError Unit → Focus σ → Prop} {x : ObjectState}
    (hroomy : focus.state.Roomy focus.executor.allocator.nextId destination) (hx : x ∈ focus.state.memory.toList)
    (h : ∀ f, focus.Internal f → focus.state.Freed x destination f.state → P (.ok ()) f) : (do
      updateState (·.unbindAll [x.object])
      writeResult destination (.pointer 0) : Exec σ Unit).Ends F focus P := by
  obtain ⟨m, hm, -, hmem⟩ := hroomy.memory.exists_unbind hx
  refine ends_seq (ends_updateState (Checked.ends_of_eq (State.unbindAll_singleton hm) ?_))
  refine ends_writeResult_found (fun r hr ↦ (hroomy.registers r hr).of_threads_eq rfl rfl) fun threads hfound ↦ ?_
  exact h _ ⟨_, threads, m, _, Nat.le_refl _, rfl⟩ ⟨hfound, hmem⟩

end Exec

end Symex
