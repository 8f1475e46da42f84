import Symex.Executor.Call
import Symex.Proofs.Accesses
import Symex.Proofs.BalancedTrees
import Symex.Proofs.Integrity.Validity

namespace Symex

open Checked ObjectState

variable {σ α : Type} {I : Inputs} {F : Fault → Prop} {a : Assignment}

/-! ## Words at known places -/

namespace ObjectState

variable {x y : ObjectState} {e value : Expr} {i base : Nat}

/-- The contents fit their object, and their masks are in order. -/
structure Sized (x : ObjectState) : Prop where
  size_eq : x.bytes.size = x.object.size
  masked : x.Masked

/-- From `x` to `y` a byte of each known place was written, and nothing else changed but the bytes, which are
`m`. -/
structure Filled (x y : ObjectState) (m : Assignment → ByteArray) : Prop where
  sized : y.Sized
  object_eq : y.object = x.object
  readOnly_eq : y.readOnly = x.readOnly
  image_eq : ∀ {a : Assignment}, a.free → image a y = m a

theorem Filled.trans {z : ObjectState} {m m' : Assignment → ByteArray} (h : x.Filled y m) (h' : y.Filled z m') :
    x.Filled z m' :=
  ⟨h'.sized, h'.object_eq.trans h.object_eq, h'.readOnly_eq.trans h.readOnly_eq, h'.image_eq⟩

theorem Sized.exists_write8 (hx : x.Sized) (he : e.WellFormed) (hw : e.width = 8) (hi : i < x.object.size) :
    ∃ y, x.write8 i e = .ok y ∧ x.Filled y fun a ↦ Bytes.put (image a x) i (a.val e).toUInt8 := by
  have hlt : i < x.bytes.size := by rwa [hx.size_eq]
  obtain ⟨y, hy⟩ := ObjectState.exists_write8 hlt e
  obtain ⟨f, hupdated, -⟩ := exists_updated_of_write8 hx.masked hy
  refine ⟨y, hy, ⟨?_, hupdated.masked⟩, hupdated.object_eq, hupdated.readOnly_eq, fun ha ↦ ?_⟩
  · rw [hupdated.size_eq, hupdated.object_eq, hx.size_eq]
  · exact (wrote_of_write8 hx.size_eq hx.masked he hw ha hy).image_eq

theorem Sized.exists_writeBytes {n : Nat} (hx : x.Sized) (hv : value.WellFormed) (hw : value.width = 64)
    (hn : n ≤ 8) (hin : base + n ≤ x.object.size) (hlt : x.object.size < wordLimit) :
    ∃ y, (List.range n).foldlM (fun x i ↦ do
        x.writeAfter (.pointer base) i (← Expr.mkExtract value (i * 8) 8)) x = .ok y ∧
      x.Filled y fun a ↦ Bytes.putNumber (image a x) base (a.val value) n := by
  have hbase : (Expr.pointer base).value? = some base := by
    have hlt' : base < 2 ^ 64 := by
      rw [← wordLimit_eq]
      omega
    rw [Expr.pointer, Expr.word, Bits.trunc_of_lt hlt']
    rfl
  induction n with
  | zero => exact ⟨x, rfl, hx, rfl, rfl, fun _ ↦ rfl⟩
  | succ n ih =>
    obtain ⟨y, hy, hfilled⟩ := ih (by omega) (by omega)
    have hbyte := Expr.mkExtract_eq_ok.2 ⟨⟨(by decide : 0 < 8), (by omega : n * 8 + 8 ≤ value.width)⟩, rfl⟩
    obtain ⟨hbo, hbw⟩ := Expr.mkExtract_over hv.over hbyte
    have hadd : Bits.addChecked base n = .ok (base + n) := addChecked_eq_ok.2 ⟨by omega, rfl⟩
    obtain ⟨z, hz, hfilled'⟩ := hfilled.sized.exists_write8 (i := base + n) hbo.wellFormed hbw (by
      rw [hfilled.object_eq]
      omega)
    refine ⟨z, ?_, hfilled.trans ⟨hfilled'.sized, hfilled'.object_eq, hfilled'.readOnly_eq, fun {a} ha ↦ ?_⟩⟩
    · rw [List.range_succ, List.foldlM_append, hy]
      simp only [List.foldlM_cons, List.foldlM_nil, ok_bind, hbyte, writeAfter, hbase, hadd, hz, bind_pure]
    · rw [hfilled'.image_eq ha, hfilled.image_eq ha, Expr.val_mkExtract ha hv hbyte,
        Nat.shiftRight_eq_div_pow, Nat.mul_comm n 8, Bytes.putNumber, Nat.toUInt8_eq, UInt8.ofNat_mod_size,
        Nat.toUInt8_eq]

theorem Sized.exists_write_word (hx : x.Sized) (hv : value.WellFormed) (hw : value.width = 64)
    (hin : base + 8 ≤ x.object.size) (hlt : x.object.size < wordLimit) :
    ∃ y, x.write (.pointer base) value = .ok y ∧
      x.Filled y fun a ↦ Bytes.putNumber (image a x) base (a.val value) 8 := by
  obtain ⟨y, hy, hfilled⟩ := hx.exists_writeBytes hv hw (Nat.le_refl 8) hin hlt
  refine ⟨y, ?_, hfilled⟩
  rw [write_eq, wholeBytes, hw]
  exact hy

end ObjectState

/-! ## Memory -/

namespace AddressSpace

variable {m m' : AddressSpace} {x : ObjectState}

/-- Objects are found by the keys that they have. -/
structure Ordered (m : AddressSpace) : Prop where
  sorted : m.objects.Sorted
  keyed : ∀ q ∈ m.entries, q.1 = q.2.object.key

theorem Ordered.of_objects_eq (h : m.Ordered) (heq : m'.objects = m.objects) : m'.Ordered := by
  have hentries : m'.entries = m.entries := congrArg AvlMap.toList heq
  exact ⟨heq ▸ h.sorted, hentries ▸ h.keyed⟩

theorem Ordered.get?_eq (h : m.Ordered) (hx : x ∈ m.toList) : m.objects.get? x.object.key = some x := by
  obtain ⟨q, hq, rfl⟩ := mem_toList.1 hx
  rw [AvlMap.get?_eq_some h.sorted, ← h.keyed q hq]
  exact hq

theorem Ordered.exists_bind (h : m.Ordered) (hid : ∀ y ∈ m.toList, y.object.id ≠ x.object.id) :
    ∃ m', m.bind x = .ok m' ∧ ∀ y, y ∈ m'.toList ↔ y = { x with owner := m.epoch } ∨ y ∈ m.toList := by
  have hnone : m.objects.get? x.object.key = none := by
    cases hget : m.objects.get? x.object.key with
    | none => rfl
    | some y =>
      have hy : (x.object.key, y) ∈ m.entries := (AvlMap.get?_eq_some h.sorted).1 hget
      exact (hid y (mem_toList.2 ⟨_, hy, rfl⟩) (congrArg ObjectKey.id (h.keyed _ hy)).symm).elim
  refine ⟨{ m with objects := (m.objects.insert x.object.key { x with owner := m.epoch }).2 }, ?_, fun y ↦ ?_⟩
  · rw [AddressSpace.bind, AvlMap.insert, hnone]
    rfl
  · have hperm := (AvlMap.perm_insert h.sorted hnone (v := { x with owner := m.epoch })).map Prod.snd
    exact hperm.mem_iff.trans List.mem_cons

end AddressSpace

/-! ## Functions of the program -/

/-- Variadic arguments as bytes, from the slot `n` on, in place of those in `m`. -/
def Bytes.putSlots (a : Assignment) (m : ByteArray) (l : List Expr) (n : Nat) : ByteArray :=
  (l.zipIdx n).foldl (fun m q ↦ putNumber m (q.2 * Exec.varargBytes) (a.val q.1) Exec.varargBytes) m

theorem Bytes.putSlots_cons (a : Assignment) (m : ByteArray) (e : Expr) (l : List Expr) (n : Nat) :
    putSlots a m (e :: l) n =
      putSlots a (putNumber m (n * Exec.varargBytes) (a.val e) Exec.varargBytes) l (n + 1) := by
  rw [putSlots, List.zipIdx_cons, List.foldl_cons, putSlots]

/-- The frame of a call at its start: the arguments are in the first registers, and the others have no
values. -/
def Frame.ofCall (id : FunctionId) (callee : Function) (caller : CallSite) (arguments : List Expr)
    (varargs : Option MemoryObject) : Frame where
  function := id
  caller := some caller
  locals := ((arguments.take callee.parameters).map some ++
    List.replicate (callee.registers - callee.parameters) none).toArray
  varargs

/-- There are arguments that only a variadic function keeps, and the function is one. -/
def Function.Spills (callee : Function) (arguments : List Expr) : Prop :=
  callee.parameters < arguments.length ∧ callee.variadic = true

instance (callee : Function) (arguments : List Expr) : Decidable (callee.Spills arguments) :=
  inferInstanceAs (Decidable (_ ∧ _))

def Focus.HasRoom (f : Focus σ) (size : Nat) : Prop :=
  size ≤ f.executor.allocator.maxSize ∧ (f.state.pool.reserve size).isSome = true

instance (f : Focus σ) (size : Nat) : Decidable (f.HasRoom size) := inferInstanceAs (Decidable (_ ∧ _))

/-- The error that entering a function ends with, if it does. -/
def Focus.entryError? (f : Focus σ) (callee : Function) (arguments : List Expr) : Option ExecError :=
  if arguments.length < callee.parameters then some .tooFewArguments
  else if callee.Spills arguments ∧
      ¬f.HasRoom (Exec.varargBytes * (arguments.drop callee.parameters).length) then
    some .varargsAllocationFailed
  else none

namespace State

variable {s s' : State} {t u : Thread}

/-- From `s` to `s'` an object with the variadic arguments `l` came into memory, and nothing else changed. -/
structure Spilled (s : State) (l : List Expr) (object : MemoryObject) (s' : State) : Prop where
  size_eq : object.size = Exec.varargBytes * l.length
  reserve_eq : s.pool.reserve object.size = some (object.address, s'.pool)
  fresh : ∀ x ∈ s.memory.toList, x.object.id ≠ object.id
  memory : ∃ y, y.object = object ∧
    (∀ {a : Assignment}, a.free → image a y = Bytes.putSlots a (Bytes.zeros object.size) l 0) ∧
    ∀ x, x ∈ s'.memory.toList ↔ x = y ∨ x ∈ s.memory.toList
  others : { s with memory := s'.memory, pool := s'.pool }.SameData s'

theorem Spilled.of_sameData {s₁ : State} {l : List Expr} {object : MemoryObject} (h : s₁.Spilled l object s')
    (hdata : s.SameData s₁) : s.Spilled l object s' := by
  have hlist : s₁.memory.toList = s.memory.toList := congrArg AvlMap.values hdata.objects_eq
  refine ⟨h.size_eq, hdata.pool_eq ▸ h.reserve_eq, hlist ▸ h.fresh, hlist ▸ h.memory, ?_⟩
  have hothers := h.others
  exact ⟨hothers.threads_eq.trans hdata.threads_eq, hothers.current_eq.trans hdata.current_eq,
    hothers.nextThreadId_eq.trans hdata.nextThreadId_eq, hothers.waitLists_eq.trans hdata.waitLists_eq,
    hothers.nextWaitList_eq.trans hdata.nextWaitList_eq, rfl, rfl, hothers.symbolics_eq.trans hdata.symbolics_eq⟩

theorem exists_spilled {object : MemoryObject} {pool : AddressPool} {l : List Expr} {c : ObjectState}
    (hm : s.memory.Ordered) (hfresh : ∀ x ∈ s.memory.toList, x.object.id ≠ object.id)
    (hsize : object.size = Exec.varargBytes * l.length)
    (hreserve : s.pool.reserve object.size = some (object.address, pool))
    (hc : ObjectState.Filled { object, bytes := Bytes.zeros object.size } c fun a ↦
      Bytes.putSlots a (image a { object, bytes := Bytes.zeros object.size }) l 0) :
    ∃ memory, s.memory.bind c = .ok memory ∧ s.Spilled l object { s with memory, pool } := by
  obtain ⟨memory, hbind, hmem⟩ := hm.exists_bind (x := c) (by rwa [hc.object_eq])
  refine ⟨memory, hbind, hsize, hreserve, hfresh, ?_, .refl _⟩
  refine ⟨{ c with owner := s.memory.epoch }, hc.object_eq, fun {a} ha ↦ ?_, hmem⟩
  change image a c = _
  rw [hc.image_eq ha, image_of_concrete (Bytes.size_zeros _)]

/-- The variadic arguments of a call were put into an object, if there are any. -/
def Placed (s : State) (callee : Function) (arguments : List Expr) (s' : State) :
    Option MemoryObject → Prop
  | none => ¬callee.Spills arguments ∧ s.SameData s'
  | some object => callee.Spills arguments ∧ s.Spilled (arguments.drop callee.parameters) object s'

/-- From `s` to `s'` a function of the program was entered, and nothing else changed. -/
def Entered (s : State) (id : FunctionId) (callee : Function) (caller : CallSite) (arguments : List Expr)
    (s' : State) : Prop :=
  ∃ t s₁ varargs, s.thread? s.current = some t ∧ s.Placed callee arguments s₁ varargs ∧
    (s₁.setThread { t with
      stack := .ofCall id callee caller arguments varargs :: t.stack
      pc := .entry id
      incoming := none }).SameData s'

theorem setThread_setThread (h : u.id = t.id) : (s.setThread t).setThread u = s.setThread u := by
  have hmap : (s.threads.map fun v ↦ if v.id = t.id then t else v).map (fun v ↦ if v.id = u.id then u else v) =
      s.threads.map fun v ↦ if v.id = u.id then u else v := by
    rw [List.map_map]
    refine List.map_congr_left fun v _ ↦ ?_
    by_cases hv : v.id = t.id
    · simp [hv, h]
    · simp [hv, h]
  exact congrArg (fun threads ↦ { s with threads }) hmap

theorem modifyThread_setThread {f : Thread → Checked Thread} (ht : (s.thread? t.id).isSome)
    (hcurrent : t.id = s.current) (hf : f t = .ok u) (hu : u.id = t.id) :
    (s.setThread t).modifyThread f = .ok (s.setThread u) := by
  have hthread : (s.setThread t).thread = .ok t := by
    unfold thread
    change ofOption ((s.setThread t).thread? s.current) = _
    rw [← hcurrent, thread?_setThread ht]
    rfl
  unfold modifyThread
  rw [hthread, ok_bind, hf, ok_bind, setThread_setThread hu]
  rfl

theorem foldlM_write (top : Frame) (rest : List Frame) (ht : (s.thread? t.id).isSome) (hcurrent : t.id = s.current)
    (l : List Expr) (before after : List (Option Expr)) :
    (l.zipIdx before.length).foldlM (fun (s : State) q ↦ s.write q.2 q.1)
      (s.setThread { t with stack := { top with
        locals := (before ++ (List.replicate l.length none ++ after)).toArray } :: rest }) =
    .ok (s.setThread { t with stack := { top with
      locals := (before ++ (l.map some ++ after)).toArray } :: rest }) := by
  induction l generalizing before with
  | nil => rfl
  | cons e l ih =>
    have hframe : ({ top with locals := (before ++ (List.replicate (e :: l).length none ++ after)).toArray } :
        Frame).write before.length e =
        .ok { top with locals := (before ++ some e :: (List.replicate l.length none ++ after)).toArray } := by
      have hroom : before.length <
          (before ++ (List.replicate (e :: l).length none ++ after)).toArray.size := by
        rw [List.size_toArray, List.length_append, List.length_append, List.length_replicate, List.length_cons]
        omega
      unfold Frame.write
      rw [demand_of hroom]
      simp [List.replicate_succ]
    have hwrite : (s.setThread { t with stack := { top with
          locals := (before ++ (List.replicate (e :: l).length none ++ after)).toArray } :: rest }).write
          before.length e = .ok (s.setThread { t with stack := { top with
            locals := (before ++ some e :: (List.replicate l.length none ++ after)).toArray } :: rest }) := by
      refine modifyThread_setThread ht hcurrent ?_ rfl
      unfold Thread.modifyFrame
      dsimp only
      rw [hframe]
      rfl
    have hrest := ih (before ++ [some e])
    rw [List.length_append, List.length_singleton, List.append_assoc, List.append_assoc] at hrest
    rw [List.zipIdx_cons, List.foldlM_cons, hwrite, ok_bind]
    exact hrest

theorem modifyThread_eq {f : Thread → Checked Thread} (ht : s.thread? s.current = some t) (hf : f t = .ok u) :
    s.modifyThread f = .ok (s.setThread u) := by
  unfold modifyThread thread
  rw [ht]
  change (f t >>= fun t ↦ pure (s.setThread t)) = _
  rw [hf]
  rfl

theorem pushCall_eq {id : FunctionId} {callee : Function} {caller : CallSite} {arguments : List Expr}
    {varargs : Option MemoryObject} (ht : s.thread? s.current = some t)
    (hparameters : callee.parameters ≤ arguments.length) (hregisters : callee.parameters ≤ callee.registers) :
    (do
      let s ← s.pushFrame (some caller) id callee.registers
      let s ← (arguments.take callee.parameters).zipIdx.foldlM
        (fun (s : State) (q : Expr × Nat) ↦ s.write q.2 q.1) s
      let s ← s.modifyFrame fun f ↦ return { f with varargs }
      s.modifyThread fun t ↦ return { t with pc := .entry id, incoming := none }) =
    .ok (s.setThread { t with
      stack := .ofCall id callee caller arguments varargs :: t.stack
      pc := .entry id
      incoming := none }) := by
  have hcurrent : t.id = s.current := by simpa using List.find?_some ht
  have hsome : (s.thread? t.id).isSome := by
    rw [hcurrent, ht]
    rfl
  have hlocals : Array.replicate callee.registers none = (([] : List (Option Expr)) ++
      (List.replicate (arguments.take callee.parameters).length none ++
        List.replicate (callee.registers - callee.parameters) none)).toArray := by
    rw [List.nil_append, List.replicate_append_replicate, List.length_take, Nat.min_eq_left hparameters,
      Nat.add_sub_cancel' hregisters, List.toArray_replicate]
  have hpush : s.pushFrame (some caller) id callee.registers = .ok (s.setThread { t with
      stack := .enter id (some caller) callee.registers :: t.stack }) := modifyThread_eq ht rfl
  have hwrite : (arguments.take callee.parameters).zipIdx.foldlM
      (fun (s : State) (q : Expr × Nat) ↦ s.write q.2 q.1)
      (s.setThread { t with stack := .enter id (some caller) callee.registers :: t.stack }) =
      .ok (s.setThread { t with stack := .ofCall id callee caller arguments none :: t.stack }) := by
    have h := foldlM_write (.enter id (some caller) callee.registers) t.stack hsome hcurrent
      (arguments.take callee.parameters) [] (List.replicate (callee.registers - callee.parameters) none)
    rw [← hlocals] at h
    exact h
  have hvarargs : (s.setThread { t with stack := .ofCall id callee caller arguments none :: t.stack }).modifyFrame
      (fun f ↦ return { f with varargs }) =
      .ok (s.setThread { t with stack := .ofCall id callee caller arguments varargs :: t.stack }) :=
    modifyThread_setThread hsome hcurrent rfl rfl
  rw [hpush, ok_bind, hwrite, ok_bind, hvarargs, ok_bind]
  exact modifyThread_setThread hsome hcurrent rfl rfl

end State

namespace Exec

variable {focus : Focus σ}

theorem ends_fillSlots {P : Except PathError ObjectState → Focus σ → Prop} {c : ObjectState} {l : List Expr}
    {n : Nat} (hc : c.Sized) (hl : ∀ e ∈ l, e.WellFormed) (hroom : varargBytes * (n + l.length) ≤ c.object.size)
    (hlt : c.object.size < wordLimit)
    (h : ∀ c', c.Filled c' (fun a ↦ Bytes.putSlots a (image a c) l n) → P (.ok c') focus) :
    ((l.zipIdx n).foldlM (fun (c : ObjectState) (q : Expr × Nat) ↦ do
      c.write (.pointer (q.2 * varargBytes)) (← Expr.mkZext q.1 64)) c : Exec σ ObjectState).Ends F focus P := by
  induction l generalizing c n with
  | nil => exact ends_pure (h c ⟨hc, rfl, rfl, fun _ ↦ rfl⟩)
  | cons e l ih =>
    rw [List.forall_mem_cons] at hl
    have hwidth := hl.1.width_range
    obtain ⟨word, hword⟩ := Expr.exists_mkZext (e := e) (w := 64) (by
      simp only [Expr.WellFormed]
      exact ⟨hl.1, hwidth.2, Nat.le_refl _⟩)
    obtain ⟨hover, hwide⟩ := Expr.mkZext_over hl.1.over hword
    have hslot : n * varargBytes + 8 ≤ c.object.size := by
      rw [List.length_cons] at hroom
      unfold varargBytes at hroom ⊢
      omega
    obtain ⟨c', hc', hfilled⟩ := hc.exists_write_word hover.wellFormed hwide hslot hlt
    rw [List.zipIdx_cons, List.foldlM_cons]
    refine ends_seq (ends_seq (ends_lift (Checked.ends_of_eq hword (ends_lift (Checked.ends_of_eq hc' ?_)))))
    refine ih hfilled.sized hl.2 ?_ (hfilled.object_eq ▸ hlt) fun c'' hfilled' ↦ h c'' ?_
    · rw [hfilled.object_eq]
      rwa [List.length_cons, Nat.add_comm l.length, ← Nat.add_assoc] at hroom
    · refine hfilled.trans ⟨hfilled'.sized, hfilled'.object_eq, hfilled'.readOnly_eq, fun {a} ha ↦ ?_⟩
      have hval : a.val word = a.val e := by
        rw [Expr.val_mkZext ha hl.1 hword, Nat.mod_eq_of_lt]
        exact Nat.lt_of_lt_of_le (a.val_lt ha hl.1) (Nat.pow_le_pow_right (by decide) hwidth.2)
      rw [hfilled'.image_eq ha, hfilled.image_eq ha, hval, Bytes.putSlots_cons, varargBytes]

theorem ends_storeVarargs {P : Except PathError MemoryObject → Focus σ → Prop} {l : List Expr}
    (hm : focus.state.memory.Ordered)
    (hids : ∀ x ∈ focus.state.memory.toList, x.object.id < focus.executor.allocator.nextId)
    (hl : ∀ e ∈ l, e.WellFormed) (hlength : l.length < 2 ^ 60)
    (hfull : ¬focus.HasRoom (varargBytes * l.length) →
      P (.error ⟨focus.executor.location, .varargsAllocationFailed⟩) focus)
    (hstored : focus.HasRoom (varargBytes * l.length) → ∀ object memory pool,
      focus.state.Spilled l object { focus.state with memory, pool } →
      P (.ok object) ⟨{ focus.executor with allocator.nextId := focus.executor.allocator.nextId + 1 },
        { focus.state with memory, pool }⟩) :
    (storeVarargs l).Ends F focus P := by
  refine ends_bind_ok rfl ?_
  dsimp only [Allocator.allocate]
  by_cases hlarge : focus.executor.allocator.maxSize < varargBytes * l.length
  · rw [if_pos hlarge]
    exact ends_fail (hfull fun hroom ↦ Nat.not_lt_of_le hroom.1 hlarge)
  · rw [if_neg hlarge]
    cases hreserve : focus.state.pool.reserve (varargBytes * l.length) with
    | none =>
      refine ends_fail (hfull fun hroom ↦ ?_)
      have hsome := hroom.2
      rw [hreserve] at hsome
      cases hsome
    | some q =>
      obtain ⟨address, pool⟩ := q
      have hroom : focus.HasRoom (varargBytes * l.length) :=
        ⟨Nat.le_of_not_lt hlarge, by rw [hreserve]; rfl⟩
      dsimp only [Option.map_some]
      generalize hobject : MemoryObject.mk .. = object
      have hsize : object.size = varargBytes * l.length := hobject ▸ rfl
      have hsmall : object.size < 2 ^ 63 := by
        rw [hsize, varargBytes]
        omega
      have hzeroed := zeroed_eq (show object.size ≤ maxBytes by simp only [maxBytes, pow2, Nat.pow_eq]; omega)
      have hfresh : ∀ x ∈ focus.state.memory.toList, x.object.id ≠ object.id := by
        intro x hx
        rw [← hobject]
        exact Nat.ne_of_lt (hids x hx)
      refine ends_bind_ok rfl (ends_seq (ends_lift (Checked.ends_of_eq hzeroed ?_)))
      refine ends_seq (ends_fillSlots ⟨Bytes.size_zeros _, masked_of_none rfl rfl rfl⟩ hl ?_ ?_ fun c hc ↦ ?_)
      · rw [Nat.zero_add]
        exact Nat.le_of_eq hsize.symm
      · rw [wordLimit_eq]
        exact Nat.lt_trans hsmall (by decide)
      · obtain ⟨memory, hbind, hspilled⟩ := State.exists_spilled hm hfresh hsize
          (show _ = some (_, pool) by rw [hsize, hreserve, ← hobject]) hc
        refine ends_seq (ends_updateState (Checked.ends_of_eq (a := { focus.state with memory, pool }) ?_ ?_))
        · dsimp only
          rw [hbind]
          rfl
        · exact ends_pure (hstored hroom object memory pool hspilled)

end Exec

/-! ## How a call ends -/

/-- The result of work that ended with an error at a place, or with none. -/
def report (l : Location) : Option ExecError → Except PathError Unit
  | none => .ok ()
  | some e => .error ⟨l, e⟩

namespace Focus

variable {g h f f' : Focus σ} {b : Branch} {s : State} {error : Option ExecError}

/-- From `g` to `f` a state ended with an error, or did not end. -/
def Ended (g f : Focus σ) (s : State) : Option ExecError → Prop
  | none => s.id ∉ f.executor.removed
  | some e => g.Failed f s e

theorem Ended.before (h : f.Ended f' s error) (hcontinues : g.executor.Continues f.executor) :
    g.Ended f' s error := by
  cases error with
  | none => exact h
  | some e => exact ⟨h.1, .before hcontinues h.2⟩

/-- The state of `h` has a part of the solutions of that of `g`, and is like it otherwise. -/
structure Portion (I : Inputs) (g h : Focus σ) : Prop where
  continues : g.executor.Continues h.executor
  data : g.state.SameData h.state
  valid : h.state.constraints.Valid
  satisfiable : I.Satisfiable h.state.constraints

/-- From `f` to `f'` there was work on the state in focus. It ended with an error that concerns this state
alone, or with none. -/
structure Tried (I : Inputs) (f f' : Focus σ) (error : Option ExecError) : Prop where
  advanced : f.Advanced f'
  unforked : f.Unforked f'
  removed_eq : f'.executor.removed = f.executor.removed
  id_eq : f'.state.id = f.state.id
  valid : f'.state.constraints.Valid
  satisfiable : I.Satisfiable f'.state.constraints
  plain : ∀ e, error = some e → e.isFatal = false ∧ e.kind ≠ .early
  trace : error.isSome → ∃ t, f'.state.stackTrace f'.executor.program = .ok t

theorem Tried.failed {e : ExecError} (h : f.Tried I f' none) (hplain : e.isFatal = false ∧ e.kind ≠ .early)
    (htrace : ∃ t, f'.state.stackTrace f'.executor.program = .ok t) : f.Tried I f' (some e) where
  advanced := h.advanced
  unforked := h.unforked
  removed_eq := h.removed_eq
  id_eq := h.id_eq
  valid := h.valid
  satisfiable := h.satisfiable
  plain := by
    rintro _ ⟨⟩
    exact hplain
  trace _ := htrace

theorem Tried.withState (h : f.Tried I f' none) (hid : s.id = f'.state.id)
    (hconstraints : s.constraints = f'.state.constraints) : f.Tried I { f' with state := s } none where
  advanced := ⟨h.advanced.continues, h.advanced.states_eq, h.advanced.removed⟩
  unforked := ⟨h.unforked.nextStateId_eq, h.unforked.tree_eq⟩
  removed_eq := h.removed_eq
  id_eq := hid.trans h.id_eq
  valid := hconstraints ▸ h.valid
  satisfiable := hconstraints ▸ h.satisfiable
  plain := by simp
  trace := by simp

theorem Portion.tried (h : g.Portion I f) : f.Tried I f none where
  advanced := ⟨.refl _, fun _ _ ↦ rfl, fun _ h ↦ .inl h⟩
  unforked := ⟨rfl, rfl⟩
  removed_eq := rfl
  id_eq := rfl
  valid := h.valid
  satisfiable := h.satisfiable
  plain := by simp
  trace := by simp

theorem Tried.withId (h : f.Tried I f' none) : f.Tried I { f' with
    executor.allocator.nextId := f'.executor.allocator.nextId + 1 } none where
  advanced := by
    have hc := h.advanced.continues
    exact ⟨⟨hc.program_eq, hc.config_eq, hc.location_eq, hc.seeds_eq, hc.atMemoryLimit_eq, hc.host, hc.maxSize_eq,
      hc.solver, hc.next_le, Nat.le_succ_of_le hc.nextId_le, hc.removed, hc.cases⟩, h.advanced.states_eq,
      h.advanced.removed⟩
  unforked := ⟨h.unforked.nextStateId_eq, h.unforked.tree_eq⟩
  removed_eq := h.removed_eq
  id_eq := h.id_eq
  valid := h.valid
  satisfiable := h.satisfiable
  plain := by simp
  trace := by simp

theorem Tried.withHost (h : f.Tried I f' none) (c : HostCall) : f.Tried I { f' with
    executor.host := (f'.executor.host.call c).2 } none where
  advanced := by
    have hc := h.advanced.continues
    exact ⟨⟨hc.program_eq, hc.config_eq, hc.location_eq, hc.seeds_eq, hc.atMemoryLimit_eq,
      hc.host.trans (f'.executor.host.continues_call c), hc.maxSize_eq, hc.solver, hc.next_le, hc.nextId_le, hc.removed,
      hc.cases⟩, h.advanced.states_eq, h.advanced.removed⟩
  unforked := ⟨h.unforked.nextStateId_eq, h.unforked.tree_eq⟩
  removed_eq := h.removed_eq
  id_eq := h.id_eq
  valid := h.valid
  satisfiable := h.satisfiable
  plain := by simp
  trace := by simp

end Focus

namespace Exec

variable {g h f k : Focus σ} {b : Branch} {s : State} {Q : Option ExecError → State → Prop}

/-- Work on the state in focus ends with an error that concerns this state alone, or with none, and `Q` says
what becomes of the state. -/
def Tries (I : Inputs) (F : Fault → Prop) (x : Exec σ Unit) (f : Focus σ) (Q : Option ExecError → State → Prop) :
    Prop :=
  x.Ends F f fun r f' ↦ ∃ error, r = report f.executor.location error ∧ f.Tried I f' error ∧ Q error f'.state

theorem Tries.mono {x : Exec σ Unit} {Q' : Option ExecError → State → Prop} (hx : x.Tries I F f Q)
    (h : ∀ error s, Q error s → Q' error s) : x.Tries I F f Q' := by
  refine Ends.mono hx fun r f' hr ↦ ?_
  obtain ⟨error, hr, htried, hQ⟩ := hr
  exact ⟨error, hr, htried, h error _ hQ⟩

theorem ends_onBranch_tries {x : Exec σ Unit} (hready : f.Ready I b s)
    (hexact : f.executor.solver.backend.Exact I False) (hx : x.Tries I F (f.view b s) Q) :
    (onBranch b x).Ends F f fun r f' ↦ (∃ o, r = .ok o) ∧ f.Worked b s.id f' ∧ f.Unforked f' ∧
      ∃ error s', f'.stateAt? b = some s' ∧ s'.id = s.id ∧ f.Ended f' s' error ∧ Q error s' := by
  refine ends_onBranch hready.at_eq hready.live (Ends.mono hx fun r k h ↦ ?_)
  obtain ⟨error, rfl, htried, hQ⟩ := h
  have hlive : k.state.id ∉ k.executor.removed := by
    rw [htried.id_eq, htried.removed_eq]
    exact hready.live
  cases error with
  | none =>
    exact ⟨⟨_, rfl⟩, htried.advanced.worked, ⟨htried.unforked.nextStateId_eq, htried.unforked.tree_eq⟩, none,
      k.state, Focus.stateAt?_back .., htried.id_eq, hlive, hQ⟩
  | some e =>
    obtain ⟨hfatal, hearly⟩ := htried.plain e rfl
    have hlocation : (f.view b s).executor.location = k.executor.location :=
      htried.advanced.continues.location_eq.symm
    have hsettle : settle (σ := σ) ⟨k.executor.location, e⟩ = terminateOnError ⟨k.executor.location, e⟩ := by
      rw [settle, if_neg (by simp [hfatal]), if_neg hearly]
    dsimp only [report]
    rw [hlocation, hsettle]
    refine ends_terminateOnError k hlive htried.valid htried.satisfiable
      (htried.advanced.continues.solver.backend_eq ▸ hexact) (htried.trace rfl) ?_
    intro f' hadvanced hunforked hstate hended hreports
    refine ⟨⟨_, rfl⟩, (htried.advanced.trans htried.id_eq hadvanced).worked,
      ⟨hunforked.nextStateId_eq.trans htried.unforked.nextStateId_eq,
        hunforked.tree_eq.trans htried.unforked.tree_eq⟩, some e, k.state, ?_, htried.id_eq, ?_, hQ⟩
    · rw [Focus.stateAt?_back, hstate]
    · have hreports' : (f.view b s).executor.Reports f'.executor k.state.id e :=
        .before htried.advanced.continues hreports
      exact ⟨hended, hreports'⟩

/-! ## Entering a function -/

/-- What a call relies on. The program is a valid one and functions of the host give values, there is a thread
with a register for the result, the ids of objects were given out, and the arguments are values of which there
are fewer than memory has words. -/
structure Callable (g : Focus σ) (arguments : List Expr) (destination : Option Register) : Prop where
  program : g.executor.program.isValid
  widths : ∀ f ∈ g.executor.program.functions, ∀ w, f.body = .external (some w) → 0 < w ∧ w ≤ 64
  thread : ∃ t, g.state.thread? g.state.current = some t
  register : ∀ r, destination = some r → g.state.HasRegister r
  trace : ∃ t, g.state.stackTrace g.executor.program = .ok t
  memory : g.state.memory.Ordered
  ids : ∀ x ∈ g.state.memory.toList, x.object.id < g.executor.allocator.nextId
  wellFormed : ∀ e ∈ arguments, e.WellFormed
  length : arguments.length < 2 ^ 60

section

variable {arguments : List Expr} {destination : Option Register} {id : FunctionId} {callee : Function}
  (hcallable : Callable g arguments destination) (hpart : g.Portion I h)
include hcallable hpart

theorem exists_refused {e : ExecError} (htried : h.Tried I k none)
    (hthreads : k.state.threads = g.state.threads) (hcurrent : k.state.current = g.state.current)
    (hplain : e.isFatal = false ∧ e.kind ≠ .early) (hQ : Q (some e) k.state) :
    ∃ error, .error ⟨k.executor.location, e⟩ = report h.executor.location error ∧ h.Tried I k error ∧
      Q error k.state := by
  obtain ⟨t, ht⟩ := hcallable.trace
  have htrace : k.state.stackTrace k.executor.program = .ok t := by
    rw [← ht, htried.advanced.continues.program_eq, hpart.continues.program_eq, State.stackTrace, State.stackTrace,
      State.thread?, State.thread?, hthreads, hcurrent]
  refine ⟨some e, ?_, htried.failed hplain ⟨t, htrace⟩, hQ⟩
  rw [htried.advanced.continues.location_eq]
  rfl

theorem ends_pushCall {varargs : Option MemoryObject} (htried : h.Tried I k none)
    (hthreads : k.state.threads = g.state.threads) (hcurrent : k.state.current = g.state.current)
    (hparameters : callee.parameters ≤ arguments.length) (hregisters : callee.parameters ≤ callee.registers)
    (hplaced : g.state.Placed callee arguments k.state varargs)
    (hQ : ∀ s, s.constraints = k.state.constraints →
      g.state.Entered id callee ⟨g.executor.location, destination⟩ arguments s → Q none s) : (do
      let caller : CallSite := ⟨(← executor).location, destination⟩
      updateState fun s ↦ do
        let s ← s.pushFrame (some caller) id callee.registers
        let s ← (arguments.take callee.parameters).zipIdx.foldlM
          (fun (s : State) (q : Expr × Nat) ↦ s.write q.2 q.1) s
        let s ← s.modifyFrame fun f ↦ return { f with varargs }
        s.modifyThread fun t ↦ return { t with pc := .entry id, incoming := none } :
          Exec σ Unit).Ends F k fun r f' ↦
      ∃ error, r = report h.executor.location error ∧ h.Tried I f' error ∧ Q error f'.state := by
  obtain ⟨t, ht⟩ := hcallable.thread
  have hthread : k.state.thread? k.state.current = some t := by
    rw [State.thread?, hthreads, hcurrent]
    exact ht
  have hlocation : k.executor.location = g.executor.location :=
    htried.advanced.continues.location_eq.trans hpart.continues.location_eq
  refine ends_bind_ok rfl (ends_updateState (Checked.ends_of_eq
    (State.pushCall_eq hthread hparameters hregisters) ⟨none, rfl, htried.withState rfl rfl, hQ _ rfl ?_⟩))
  rw [hlocation]
  exact ⟨t, k.state, varargs, ht, hplaced, .refl _⟩

/-- A function of the program is entered, unless there are too few arguments or there is no room for the
variadic ones. -/
theorem tries_enter (hregisters : callee.parameters ≤ callee.registers)
    (hQ : ∀ s, s.constraints = h.state.constraints → (g.entryError? callee arguments = none →
      g.state.Entered id callee ⟨g.executor.location, destination⟩ arguments s) →
      Q (g.entryError? callee arguments) s) :
    (enter id callee arguments destination).Tries I F h Q := by
  unfold enter
  dsimp only
  by_cases hfew : arguments.length < callee.parameters
  · rw [if_pos hfew]
    have herror : g.entryError? callee arguments = some .tooFewArguments := if_pos hfew
    rw [herror] at hQ
    exact ends_seq (ends_fail (exists_refused hcallable hpart hpart.tried hpart.data.threads_eq
      hpart.data.current_eq (by decide) (hQ _ rfl (by simp))))
  · rw [if_neg hfew]
    have hparameters := Nat.le_of_not_lt hfew
    by_cases hspills : callee.Spills arguments
    · have hroom : h.HasRoom (varargBytes * (arguments.drop callee.parameters).length) ↔
          g.HasRoom (varargBytes * (arguments.drop callee.parameters).length) := by
        rw [Focus.HasRoom, Focus.HasRoom, hpart.continues.maxSize_eq, hpart.data.pool_eq]
      have hlist : h.state.memory.toList = g.state.memory.toList := congrArg AvlMap.values hpart.data.objects_eq
      have hlength : (arguments.drop callee.parameters).length < 2 ^ 60 :=
        Nat.lt_of_le_of_lt (by simp) hcallable.length
      rw [if_pos (show callee.parameters < arguments.length ∧ callee.variadic = true from hspills),
        map_eq_pure_bind, bind_assoc]
      refine ends_seq (ends_storeVarargs (hcallable.memory.of_objects_eq hpart.data.objects_eq) ?_
        (fun e he ↦ hcallable.wellFormed e (List.mem_of_mem_drop he)) hlength (fun hfull ↦ ?_) ?_)
      · rw [hlist]
        exact fun x hx ↦ Nat.lt_of_lt_of_le (hcallable.ids x hx) hpart.continues.nextId_le
      · have herror : g.entryError? callee arguments = some .varargsAllocationFailed := by
          rw [Focus.entryError?, if_neg hfew, if_pos ⟨hspills, mt hroom.2 hfull⟩]
        rw [herror] at hQ
        exact exists_refused hcallable hpart hpart.tried hpart.data.threads_eq hpart.data.current_eq (by decide)
          (hQ _ rfl (by simp))
      · intro hfits object memory pool hspilled
        have herror : g.entryError? callee arguments = none := by
          rw [Focus.entryError?, if_neg hfew, if_neg fun hno ↦ hno.2 (hroom.1 hfits)]
        rw [herror] at hQ
        have hplaced : g.state.Placed callee arguments { h.state with memory, pool } (some object) :=
          ⟨hspills, hspilled.of_sameData hpart.data⟩
        exact ends_bind_ok rfl (ends_pushCall hcallable hpart (hpart.tried.withId.withState rfl rfl)
          hpart.data.threads_eq hpart.data.current_eq hparameters hregisters hplaced
          fun s hs hentered ↦ hQ s hs fun _ ↦ hentered)
    · have herror : g.entryError? callee arguments = none := by
        rw [Focus.entryError?, if_neg hfew, if_neg fun hno ↦ hspills hno.1]
      rw [herror] at hQ
      rw [if_neg (show ¬(callee.parameters < arguments.length ∧ callee.variadic = true) from hspills)]
      have hplaced : g.state.Placed callee arguments h.state none := ⟨hspills, hpart.data⟩
      exact ends_bind_ok rfl (ends_pushCall hcallable hpart hpart.tried hpart.data.threads_eq
        hpart.data.current_eq hparameters hregisters hplaced fun s hs hentered ↦ hQ s hs fun _ ↦ hentered)

end

end Exec

end Symex
