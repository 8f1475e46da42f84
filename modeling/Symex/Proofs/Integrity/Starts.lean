import Symex.Proofs.Integrity.Sessions

namespace Symex

open Checked AddressSpace

variable {σ : Type} {p : Program}

/-- Objects that were bound one after another up to `address`, with ids below `bound`. -/
structure Laid (address bound : Nat) (objects : List (ObjectKey × MemoryObject)) : Prop where
  keyed : ∀ e ∈ objects, e.1 = e.2.key
  ids : (objects.map (·.2.id)).Nodup
  id_lt : ∀ e ∈ objects, e.2.id < bound
  isGlobal : ∀ e ∈ objects, e.2.isGlobal = true ∧ e.2.isLocal = false
  stop_le : ∀ e ∈ objects, e.2.stop ≤ address
  apart : (objects.map (·.2)).Pairwise MemoryObject.Apart

theorem laid_nil (address bound : Nat) : Laid address bound [] where
  keyed := List.forall_mem_nil _
  ids := List.nodup_nil
  id_lt := List.forall_mem_nil _
  isGlobal := List.forall_mem_nil _
  stop_le := List.forall_mem_nil _
  apart := List.Pairwise.nil

theorem Laid.perm {address bound : Nat} {objects objects' : List (ObjectKey × MemoryObject)}
    (h : Laid address bound objects) (hperm : objects'.Perm objects) : Laid address bound objects' where
  keyed e he := h.keyed e (hperm.mem_iff.1 he)
  ids := ((hperm.map _).nodup_iff).2 h.ids
  id_lt e he := h.id_lt e (hperm.mem_iff.1 he)
  isGlobal e he := h.isGlobal e (hperm.mem_iff.1 he)
  stop_le e he := h.stop_le e (hperm.mem_iff.1 he)
  apart := ((hperm.map _).pairwise_iff Or.symm).2 h.apart

theorem Laid.cons {address bound next : Nat} {objects : List (ObjectKey × MemoryObject)} {o : MemoryObject}
    (h : Laid address bound objects) (haddress : o.address = address) (hid : o.id = bound)
    (hglobal : o.isGlobal = true ∧ o.isLocal = false) (hnext : o.stop ≤ next) :
    Laid next (bound + 1) ((o.key, o) :: objects) where
  keyed := List.forall_mem_cons.2 ⟨rfl, h.keyed⟩
  ids := by
    refine List.nodup_cons.2 ⟨fun hmem ↦ ?_, h.ids⟩
    obtain ⟨e, he, heq⟩ := List.mem_map.1 hmem
    exact Nat.ne_of_lt (h.id_lt e he) (heq.trans hid)
  id_lt := List.forall_mem_cons.2 ⟨hid ▸ Nat.lt_succ_self _, fun e he ↦ Nat.lt_succ_of_lt (h.id_lt e he)⟩
  isGlobal := List.forall_mem_cons.2 ⟨hglobal, h.isGlobal⟩
  stop_le := by
    refine List.forall_mem_cons.2 ⟨hnext, fun e he ↦ ?_⟩
    calc
      e.2.stop ≤ o.address := haddress ▸ h.stop_le e he
      _ ≤ o.stop := Nat.le_add_right _ _
      _ ≤ next := hnext
  apart := by
    refine List.pairwise_cons.2 ⟨fun o' ho' ↦ ?_, h.apart⟩
    obtain ⟨e, he, rfl⟩ := List.mem_map.1 ho'
    exact .inr (haddress ▸ h.stop_le e he)

theorem Bits.found_addChecked (x y : Nat) : Found (addChecked x y) (· = x + y) :=
  (plain_addChecked x y).found fun _ h ↦ (ObjectState.addChecked_eq_ok.1 h).2.symm

namespace Executor

theorem found_globalContents {g : Global} {object : MemoryObject} (hsize : object.size = g.size) :
    Found (globalContents g object) (·.object = object) := by
  unfold globalContents
  split
  · exact ends_bind (ObjectState.found_zeroed object) fun _ h ↦ ends_pure h
  · refine ends_bind (plain_demand (by decide)) fun _ _ ↦ ?_
    refine ends_bind (ObjectState.found_withBytes ?_) fun _ h ↦ ends_pure h
    rw [ByteArray.size_append, ByteArray.size_extract, Bytes.size_zeros, hsize]
    omega

theorem found_bindGlobals (globals : List (Global × GlobalId)) {address : Nat} {allocator : Allocator}
    {memory : AddressSpace} (hm : memory.objects.Sorted) (h : Laid address allocator.nextId memory.outline) :
    Found (bindGlobals address globals allocator memory) fun q ↦ q.1.length = globals.length ∧
      q.2.2.objects.Sorted ∧
        Laid (globals.foldl (fun address g ↦ address + g.1.padded) address) q.2.1.nextId q.2.2.outline := by
  induction globals generalizing address allocator memory with
  | nil => exact ends_pure ⟨rfl, hm, h⟩
  | cons g rest ih =>
    refine ends_bind (found_globalContents rfl) fun contents hcontents ↦ ?_
    have hfresh : ∀ e ∈ memory.outline, e.1 ≠ contents.object.key := by
      intro e he hkey
      rw [h.keyed e he, hcontents] at hkey
      exact Nat.ne_of_lt (h.id_lt e he) (congrArg ObjectKey.id hkey)
    refine ends_bind (found_bind hm hfresh) fun memory' hmemory ↦ ?_
    obtain ⟨hm', hperm⟩ := hmemory
    rw [hcontents] at hperm
    refine ends_bind (Bits.found_addChecked _ _) fun padded hpadded ↦ ?_
    refine ends_bind (Bits.found_addChecked _ _) fun next hnext ↦ ?_
    have hlaid : Laid (address + g.1.padded) (allocator.nextId + 1) memory'.outline := by
      refine (h.cons rfl rfl ⟨rfl, rfl⟩ (Nat.add_le_add_left ?_ address)).perm hperm
      exact Nat.le_add_right _ _
    obtain rfl : next = address + g.1.padded := by rw [hnext, hpadded, Global.padded]
    refine ends_bind (ih hm' hlaid) fun q hq ↦ ends_pure ⟨?_, hq.2⟩
    rw [List.length_cons, List.length_cons, hq.1]

theorem foldl_padded (globals : List Global) (address k : Nat) :
    (globals.zipIdx k).foldl (fun address g ↦ address + g.1.padded) address =
      globals.foldl (fun address g ↦ address + g.padded) address := by
  induction globals generalizing address k with
  | nil => rfl
  | cons g rest ih => exact ih _ _

end Executor

theorem Laid.owned {bound : Nat} {objects : List (ObjectKey × MemoryObject)}
    (h : Laid p.globalsEnd bound objects) : Owned p bound [] objects .initial where
  keyed := h.keyed
  ids := h.ids
  id_lt := h.id_lt
  locals := by
    refine .of_eq (List.filter_eq_nil_iff.2 fun o ho hlocal ↦ ?_).symm
    obtain ⟨e, he, rfl⟩ := List.mem_map.1 ho
    exact nomatch (h.isGlobal e he).2.symm.trans hlocal
  pooled e he hglobal := nomatch (h.isGlobal e he).1.symm.trans hglobal
  limit_eq := rfl
  next_ge := Nat.le_refl _
  next_le := by decide
  globals hfit e he _ := Nat.le_trans (h.stop_le e he) hfit
  apart _ := h.apart

theorem Shape.controlled_start {id : FunctionId} {f : Function} {objects : List (ObjectKey × MemoryObject)}
    {pool : AddressPool} (hf : p.functions[id]? = some f) (hentry : (p.instruction? (.entry id)).isSome) :
    Shape.Controlled p ⟨[(Thread.start 0 id f.registers).shape], 0, 1, objects, pool⟩ := by
  have hplaced : (Thread.start 0 id f.registers).shape.Placed p := by
    rw [Thread.shape_start]
    exact ⟨⟨_, _, rfl, rfl, ⟨f, hf, rfl⟩, rfl⟩, hentry⟩
  have hshape := Thread.shape_start 0 id f.registers
  refine ⟨List.nodup_singleton _, ?_, ?_, _, List.mem_singleton_self _, ?_, ?_, hplaced⟩
  · intro t ht
    rw [List.mem_singleton.1 ht, hshape]
    exact Nat.zero_lt_one
  · intro t ht _
    exact List.mem_singleton.1 ht ▸ hplaced
  · rw [hshape]
  · rw [hshape]

namespace Executor

variable {e e' : Executor σ}

/-- A machine whose first state has room for the parameters of the entry function. -/
structure Roomy (p : Program) (e : Executor σ) : Prop where
  ordered : e.Ordered p []
  removed_eq : e.removed = []
  room : ∀ entry s, p.functions[p.entry]? = some entry → e.states[(0 : StateId)]? = some s →
    ∀ r < entry.parameters, s.shape.HasRegister r

theorem found_writeArguments_root {s : State} {arguments : List Expr} {n : Nat} {bound : Nat}
    (hs : s.shape.InOrder p bound) (hroom : ∀ r < n, s.shape.HasRegister r)
    (hlength : arguments.length ≤ n) :
    Found (writeArguments arguments s) fun s' ↦ s'.id = s.id ∧ s'.shape = s.shape :=
  State.found_writeArguments hs.controlled.nodup fun r hr ↦ hroom r (Nat.lt_of_lt_of_le hr hlength)

theorem found_constants {globals : List MemoryObject} (hp : p.isValid)
    (hglobals : globals.length = p.globals.size) :
    Found (p.constants.mapM (constantValue globals)) (·.size = p.constants.size) := by
  rw [Array.mapM_eq_mapM_toList, map_eq_pure_bind]
  refine ends_bind (found_mapM (g := fun _ ↦ ()) (k := fun _ ↦ ()) fun c hc ↦ ?_) fun r hr ↦ ends_pure ?_
  · refine Ends.mono (P := fun _ ↦ True) ?_ fun _ _ ↦ rfl
    cases c with
    | int value width => exact Expr.plain_constant value width
    | globalAddress g offset =>
      have hlt := Program.global_lt hp (Array.mem_toList_iff.1 hc)
      rw [← hglobals] at hlt
      refine ends_bind (P := fun _ ↦ True) ?_ fun _ _ ↦ plain_pure _
      rw [List.getElem?_eq_getElem hlt]
      exact plain_pure _
    | functionAddress f => exact plain_pure _
    | null => exact plain_pure _
  · simpa using congrArg List.length hr

theorem found_start (hp : p.isValid) (config : Config) (solver : Solver σ) (watchdog : Watchdog) :
    Found (start p config solver watchdog) (·.Roomy p) := by
  obtain ⟨entry, hentry, hdefined⟩ := Program.exists_entry hp
  have hfirst := Program.isSome_instruction?_entry hp hentry hdefined
  refine ends_bind (Program.found_function (Array.getElem?_eq_some_iff.1 hentry).1) fun entry' hentry' ↦ ?_
  obtain rfl : entry = entry' := Option.some.inj (hentry.symm.trans hentry')
  refine ends_bind (found_bindGlobals _ List.Pairwise.nil (laid_nil _ _)) fun q hq ↦ ?_
  obtain ⟨hlength, hsorted, hlaid⟩ := hq
  rw [foldl_padded] at hlaid
  rw [List.length_zipIdx, Array.length_toList] at hlength
  refine ends_bind (found_constants hp hlength) fun constants hconstants ↦ ?_
  obtain ⟨globals, allocator, memory⟩ := q
  dsimp only at hlaid hsorted ⊢
  generalize hroot : ({ State.start 0 p.entry _ with memory, node := some ProcessTree.root } : State) = root
  have hshape : root.shape =
      ⟨[(Thread.start 0 p.entry entry.registers).shape], 0, 1, memory.outline, .initial⟩ := hroot ▸ rfl
  have hinOrder : root.shape.InOrder p allocator.nextId := by
    rw [hshape]
    refine ⟨Shape.controlled_start hentry hfirst, ?_, ascending_outline.2 hsorted⟩
    have hheld : Shape.held ⟨[(Thread.start 0 p.entry entry.registers).shape], 0, 1, memory.outline,
        .initial⟩ = [] := by
      rw [Thread.shape_start]
      rfl
    rw [hheld]
    exact Laid.owned hlaid
  have hroom : ∀ r < entry.parameters, root.shape.HasRegister r := by
    intro r hr
    rw [hshape, Thread.shape_start]
    exact ⟨_, ⟨List.mem_singleton_self _, rfl⟩, _, _, rfl,
      Nat.lt_of_lt_of_le hr (Program.parameters_le hp hentry hdefined)⟩
  refine ends_bind (found_writeArguments_root (n := entry.parameters) hinOrder hroom
    (List.length_replicate ▸ Nat.le_refl _)) fun root' hroot' ↦ ends_pure ?_
  have hstates : ∀ (id : StateId) (s : State), (Std.TreeMap.ofList [((0 : StateId), root')])[id]? = some s →
      id = 0 ∧ s = root' := by
    intro id s hs
    rw [Std.TreeMap.ofList_singleton, Focus.getElem?_insert_state] at hs
    split at hs
    · exact ⟨Eq.symm ‹_›, (Option.some.inj hs).symm⟩
    · simp at hs
  refine ⟨⟨⟨fun id s hs ↦ ?_, List.forall_mem_nil _⟩, rfl, hconstants, fun id s hs _ ↦ .inl ?_⟩, rfl, ?_⟩
  · obtain ⟨rfl, rfl⟩ := hstates id s hs
    exact ⟨hroot'.1.trans (hroot ▸ rfl), Nat.zero_lt_one⟩
  · obtain ⟨rfl, rfl⟩ := hstates id s hs
    exact hroot'.2 ▸ hinOrder
  · intro entry' s hentry' hs
    obtain rfl : entry = entry' := Option.some.inj (hentry.symm.trans hentry')
    rw [(hstates 0 s hs).2, hroot'.2]
    exact hroom

theorem Roomy.found_withArguments (hp : p.isValid) (he : e.Roomy p) (arguments : List Expr) :
    Found (e.withArguments arguments) (·.Roomy p) := by
  have hfunction : Found (e.program.function e.program.entry) fun f ↦ p.functions[p.entry]? = some f := by
    obtain ⟨entry, hentry, -⟩ := Program.exists_entry hp
    rw [he.ordered.program_eq]
    exact Program.found_function (Array.getElem?_eq_some_iff.1 hentry).1
  refine ends_bind hfunction fun entry hentry ↦ ?_
  split
  · exact ends_pure he
  · rename_i root hroot
    have hinOrder : root.shape.InOrder p e.allocator.nextId :=
      (he.ordered.states 0 root hroot (he.removed_eq ▸ List.not_mem_nil)).resolve_right
        fun h ↦ List.not_mem_nil h.1
    refine ends_bind (found_writeArguments_root (n := entry.parameters) hinOrder (he.room entry root hentry hroot)
      (List.length_take_le _ _)) fun root' hroot' ↦ ends_pure ?_
    have hstates : ∀ (id : StateId) (s : State), (e.states.insert 0 root')[id]? = some s →
        ∃ s₀, e.states[id]? = some s₀ ∧ s.id = s₀.id ∧ s.shape = s₀.shape := by
      intro id s hs
      rw [Focus.getElem?_insert_state] at hs
      split at hs
      · rename_i heq
        obtain rfl := Option.some.inj hs
        exact ⟨root, heq ▸ hroot, hroot'⟩
      · exact ⟨s, hs, rfl, rfl⟩
    refine ⟨⟨⟨fun id s hs ↦ ?_, he.ordered.tidy.removed_lt⟩, he.ordered.program_eq, he.ordered.constants_eq,
      fun id s hs hid ↦ ?_⟩, he.removed_eq, fun entry' s hentry' hs ↦ ?_⟩
    · obtain ⟨s₀, hs₀, hname, -⟩ := hstates id s hs
      exact hname ▸ he.ordered.tidy.named id s₀ hs₀
    · obtain ⟨s₀, hs₀, -, hshape⟩ := hstates id s hs
      exact hshape ▸ he.ordered.states id s₀ hs₀ hid
    · obtain ⟨s₀, hs₀, -, hshape⟩ := hstates 0 s hs
      exact hshape ▸ he.room entry' s₀ hentry' hs₀

end Executor

end Symex
