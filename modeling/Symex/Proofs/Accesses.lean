import Symex.Executor.Access
import Symex.Proofs.ByteArrays
import Symex.Proofs.Places
import Symex.Proofs.Resolution

namespace Symex

open Bits ObjectState

variable {σ : Type} {I : Inputs} {F : Fault → Prop} {a : Assignment} {x y : ObjectState} {p offset v : Expr}

/-! ## Accesses that are made -/

namespace State

variable {s s' : State} {r : Register}

/-- The value of a register of the innermost frame. -/
def register? (s : State) (r : Register) : Option Expr := do
  let t ← s.thread? s.current
  let top ← t.stack.head?
  top.read? r

def HasRegister (s : State) (r : Register) : Prop :=
  ∃ t top rest, s.thread? s.current = some t ∧ t.stack = top :: rest ∧ r < top.locals.size

/-- A value was put into a register, and nothing else changed. -/
structure Loaded (s : State) (r : Register) (v : Expr) (s' : State) : Prop where
  register?_eq : s'.register? r = some v
  others : ∃ s₁, s.write r v = .ok s₁ ∧ s₁.SameData s'

/-- The contents of an object were replaced, and nothing else changed. -/
structure Stored (s : State) (x y : ObjectState) (s' : State) : Prop where
  object_eq : y.object = x.object
  memory_eq : s'.memory.toList =
    s.memory.toList.map fun z ↦ if z.object.address = x.object.address then y else z
  others : { s with memory := s'.memory }.SameData s'

theorem thread?_setThread {t : Thread} (h : (s.thread? t.id).isSome) :
    (s.setThread t).thread? t.id = some t := by
  change (s.threads.find? (·.id == t.id)).isSome at h
  change (s.threads.map fun u ↦ if u.id = t.id then t else u).find? (·.id == t.id) = some t
  generalize s.threads = l at h
  induction l with
  | nil => cases h
  | cons u l ih =>
    by_cases hu : u.id = t.id
    · simp [hu]
    · rw [List.find?_cons_of_neg (by simpa using hu)] at h
      rw [List.map_cons, if_neg hu, List.find?_cons_of_neg (by simpa using hu)]
      exact ih h

theorem memory_of_modifyFrame {f : Frame → Checked Frame} (h : s.modifyFrame f = .ok s') :
    s'.memory = s.memory := by
  obtain ⟨t, -, h⟩ := Checked.bind_eq_ok.1 h
  obtain ⟨u, -, h⟩ := Checked.bind_eq_ok.1 h
  obtain rfl := Checked.pure_eq_ok.1 h
  rfl

theorem memory_of_write {v : Expr} (h : s.write r v = .ok s') : s'.memory = s.memory :=
  memory_of_modifyFrame h

theorem HasRegister.exists_write (h : s.HasRegister r) (hdata : s.SameData s') (v : Expr) :
    ∃ s₁, s'.write r v = .ok s₁ ∧ s₁.id = s'.id ∧ s₁.constraints = s'.constraints ∧
      s.Loaded r v s₁ := by
  obtain ⟨t, top, rest, ht, hstack, hr⟩ := h
  have hid : t.id = s.current := by simpa using List.find?_some ht
  have hframe : t.modifyFrame (·.write r v) =
      .ok { t with stack := { top with locals := top.locals.setIfInBounds r (some v) } :: rest } := by
    unfold Thread.modifyFrame Frame.write
    rw [hstack]
    dsimp only
    rw [demand_of hr]
    rfl
  generalize hu : ({ t with stack := _ } : Thread) = u at hframe
  have hwrite : ∀ z : State, z.thread? z.current = some t → z.write r v = .ok (z.setThread u) := by
    intro z hz
    unfold write modifyFrame modifyThread thread
    rw [hz]
    change (t.modifyFrame (·.write r v) >>= fun t ↦ pure (z.setThread t)) = _
    rw [hframe]
    rfl
  have ht' : s'.thread? s'.current = some t := by
    rw [thread?, hdata.threads_eq, hdata.current_eq]
    exact ht
  have huid : u.id = s'.current := by
    rw [← hu, hdata.current_eq]
    exact hid
  refine ⟨s'.setThread u, hwrite s' ht', rfl, rfl, ?_, s.setThread u, hwrite s ht, ?_⟩
  · have hthread := thread?_setThread (s := s') (t := u) (by rw [huid, ht']; rfl)
    unfold register?
    change (do
      let t ← (s'.setThread u).thread? s'.current
      let top ← t.stack.head?
      top.read? r) = some v
    rw [← huid, hthread, ← hu]
    simp [Frame.read?, hr]
  · refine ⟨?_, hdata.current_eq, hdata.nextThreadId_eq, hdata.waitLists_eq, hdata.nextWaitList_eq,
      hdata.objects_eq, hdata.pool_eq, hdata.symbolics_eq⟩
    simp only [setThread, hdata.threads_eq]

end State

namespace Access

variable {access : Access} {s s' : State}

/-- The access can be made in the state: its width is that of a value, and there is a register for what is
loaded. -/
def Fits (s : State) : Access → Prop
  | load width r => (0 < width ∧ width ≤ 64) ∧ s.HasRegister r
  | store value => value.WellFormed

/-- The access changes an object that must not change. -/
def Forbidden (x : ObjectState) : Access → Prop
  | load _ _ => False
  | store _ => x.readOnly = true

def bytes (access : Access) : Nat := byteCount access.width

theorem Fits.width_range (h : access.Fits s) : 0 < access.width ∧ access.width ≤ 64 := by
  cases access with
  | load width r => exact h.1
  | store value => exact Expr.WellFormed.width_range h

theorem Fits.bytes_pos (h : access.Fits s) : 0 < access.bytes := by
  have hw := h.width_range
  unfold bytes byteCount
  omega

theorem Fits.byteCountChecked_eq (h : access.Fits s) : byteCountChecked access.width = .ok access.bytes := by
  have hw := h.width_range
  rw [byteCountChecked, demand_of (show access.width + 7 < pow2 32 by simp only [pow2, Nat.pow_eq]; omega)]
  rfl

/-- From `s` to `s'` the access was made at a distance `i` from the start of an object, and nothing else
changed. -/
def Made (s : State) (x : ObjectState) (i : Nat) (a : Assignment) (s' : State) : Access → Prop
  | load width r => ∃ v, s.Loaded r v s' ∧ a.val v = Bytes.number (image a x) i (byteCount width) % 2 ^ width
  | store value => ∃ y, s.Stored x y s' ∧
      image a y = Bytes.putNumber (image a x) i (a.val value) (byteCount value.width)

end Access

namespace AddressSpace

variable {m m' : AddressSpace}

theorem Addressable.of_objects_eq (h : m.Addressable) (heq : m'.objects = m.objects) : m'.Addressable := by
  have hentries : m'.entries = m.entries := congrArg AvlMap.toList heq
  exact ⟨⟨hentries ▸ h.spaced.keyed, hentries ▸ h.spaced.apart⟩, hentries ▸ h.stops, hentries ▸ h.sizes,
    hentries ▸ h.ids⟩

theorem Addressable.find?_eq (h : m.Addressable) (hx : x ∈ m.toList) : m.find? x.object = some x := by
  obtain ⟨q, hq, rfl⟩ := mem_toList.1 hx
  rw [h.spaced.find?_eq_some, ← h.spaced.keyed q hq]
  exact hq

theorem Addressable.exists_modify {f : ObjectState → Checked ObjectState} (h : m.Addressable)
    (hx : x ∈ m.toList) (hy : f { x with owner := m.epoch } = .ok y) :
    ∃ m₁, m.modify x.object f = .ok m₁ ∧
      m₁.toList = m.toList.map fun z ↦ if z.object.address = x.object.address then y else z := by
  obtain ⟨q, hq, rfl⟩ := mem_toList.1 hx
  have hkey : (q.2.object.key, q.2) ∈ m.entries := by
    rw [← h.spaced.keyed q hq]
    exact hq
  obtain ⟨m₁, hm₁, -, hentries⟩ := h.spaced.exists_modify hkey hy
  refine ⟨m₁, hm₁, ?_⟩
  rw [toList_eq, toList_eq, hentries, List.map_map, List.map_map]
  refine List.map_congr_left fun r hr ↦ ?_
  simp only [Function.comp_apply, h.address_eq hr]
  split
  · rfl
  · rfl

end AddressSpace

namespace Exec

variable {focus : Focus σ} {access : Access} {s : State}

theorem ends_perform {P : Except PathError Unit → Focus σ → Prop} (hm : s.memory.Addressable)
    (hx : x ∈ s.memory.toList) (hproper : x.Proper Anything) (hfits : access.Fits s)
    (hdata : s.SameData focus.state) (hoffset : offset.IsAddress)
    (hin : ∃ a : Assignment, a.free ∧ a.val offset + access.bytes ≤ x.object.size)
    (hmade : ¬access.Forbidden x → ∀ s', s'.id = focus.state.id →
      s'.constraints = focus.state.constraints →
      (∀ a : Assignment, a.free → a.val offset + access.bytes ≤ x.object.size →
        access.Made s x (a.val offset) a s') → P (.ok ()) { focus with state := s' })
    (hforbidden : access.Forbidden x → P (.error ⟨focus.executor.location, .readOnly⟩) focus) :
    (perform access x.object offset).Ends F focus P := by
  have hS : ∀ name bytes, Anything (.constant name bytes) := fun _ _ ↦ trivial
  obtain ⟨a, ha, hin⟩ := hin
  have hm' : focus.state.memory.Addressable := hm.of_objects_eq hdata.objects_eq
  have hlist : focus.state.memory.toList = s.memory.toList := congrArg AvlMap.values hdata.objects_eq
  refine ends_bind_ok rfl ?_
  rw [hm'.find?_eq (hlist ▸ hx)]
  dsimp only
  cases access with
  | load width r =>
    obtain ⟨v, hv, -⟩ := hproper.exists_read hS ha hoffset.wellFormed.over hoffset.width_eq
      hfits.1 hin
    refine ends_seq (ends_lift (Checked.ends_of_eq hv ?_))
    obtain ⟨s', hs', hid, hc, hloaded⟩ := hfits.2.exists_write hdata v
    refine ends_updateState (Checked.ends_of_eq hs' (hmade (fun h ↦ h) s' hid hc fun b hb hin ↦ ?_))
    obtain ⟨v', hv', -, heval⟩ := hproper.exists_read hS hb hoffset.wellFormed.over
      hoffset.width_eq hfits.1 hin
    obtain rfl := Except.ok.inj (hv.symm.trans hv')
    exact ⟨v, hloaded, b.val_eq heval⟩
  | store value =>
    dsimp only
    split
    · exact ends_seq (ends_fail (hforbidden ‹_›))
    · rename_i hwritable
      -- the state becomes the owner of the object, and what the object contains stays the same
      have howned : ({ x with owner := focus.state.memory.epoch } : ObjectState).Proper Anything :=
        ⟨hproper.size_eq, hproper.small, hproper.masked.congr rfl rfl rfl rfl, hproper.symbolic,
          hproper.updates, hproper.flushed⟩
      have hwrite {b : Assignment} (hb : b.free) := howned.exists_write hS hb
        hoffset.wellFormed.over hoffset.width_eq (Expr.WellFormed.over hfits)
      obtain ⟨y, hy, hobject, -⟩ := hwrite ha hin
      obtain ⟨m, hmodify, hlist'⟩ := hm'.exists_modify (f := (·.write offset value)) (hlist ▸ hx) hy
      refine ends_updateState (Checked.ends_of_eq (a := { focus.state with memory := m }) ?_ ?_)
      · rw [hmodify]
        rfl
      · refine hmade hwritable _ rfl rfl fun b hb hin ↦ ?_
        obtain ⟨y', hy', hbecame⟩ := hwrite hb hin
        obtain rfl := Except.ok.inj (hy.symm.trans hy')
        refine ⟨y, ⟨hbecame.object_eq, by rw [← hlist]; exact hlist', ?_⟩, hbecame.image_eq⟩
        exact ⟨hdata.threads_eq, hdata.current_eq, hdata.nextThreadId_eq, hdata.waitLists_eq,
          hdata.nextWaitList_eq, rfl, hdata.pool_eq, hdata.symbolics_eq⟩

end Exec

/-! ## Outcomes -/

theorem State.SameData.refl (s : State) : s.SameData s := ⟨rfl, rfl, rfl, rfl, rfl, rfl, rfl, rfl⟩

theorem State.SameData.trans {s s' s'' : State} (h : s.SameData s') (h' : s'.SameData s'') :
    s.SameData s'' where
  threads_eq := h'.threads_eq.trans h.threads_eq
  current_eq := h'.current_eq.trans h.current_eq
  nextThreadId_eq := h'.nextThreadId_eq.trans h.nextThreadId_eq
  waitLists_eq := h'.waitLists_eq.trans h.waitLists_eq
  nextWaitList_eq := h'.nextWaitList_eq.trans h.nextWaitList_eq
  objects_eq := h'.objects_eq.trans h.objects_eq
  pool_eq := h'.pool_eq.trans h.pool_eq
  symbolics_eq := h'.symbolics_eq.trans h.symbolics_eq

theorem State.SameData.stackTrace_eq {s s' : State} (h : s.SameData s') (program : Program) :
    s'.stackTrace program = s.stackTrace program := by
  rw [stackTrace, stackTrace, thread?, thread?, h.threads_eq, h.current_eq]

def Focus.Failed (g f : Focus σ) (s : State) (error : ExecError) : Prop :=
  s.id ∈ f.executor.removed ∧ g.executor.Reports f.executor s.id error

namespace Access

variable {g f f' : Focus σ} {access : Access} {b : Branch} {s : State} {id : StateId}

/-- All bytes that are accessed lie in the object. -/
def Inside (access : Access) (a : Assignment) (p : Expr) (x : ObjectState) : Prop :=
  x.object.address ≤ a.val p ∧ a.val p + access.bytes ≤ x.object.address + x.object.size

/-- What becomes of a state whose access lies inside an object. -/
structure Outcome (access : Access) (g f : Focus σ) (p : Expr) (x : ObjectState) (a : Assignment)
    (s : State) : Prop where
  made : ¬access.Forbidden x → s.id ∉ f.executor.removed ∧
    access.Made g.state x (a.val p - x.object.address) a s
  failed : access.Forbidden x → g.Failed f s .readOnly

theorem Outcome.worked (h : access.Outcome g f p x a s) (hw : f.Worked b id f') (hne : s.id ≠ id) :
    access.Outcome g f' p x a s where
  made hallowed := by
    obtain ⟨hlive, hmade⟩ := h.made hallowed
    exact ⟨fun hmem ↦ (hw.removed _ hmem).elim hlive hne, hmade⟩
  failed hforbidden := by
    obtain ⟨hended, hreports⟩ := h.failed hforbidden
    exact ⟨hw.continues.removed _ hended, hreports.after hw.continues⟩

/-- The access can be made in the state in focus, and the machine may go into every case. -/
structure Posed (I : Inputs) (g : Focus σ) (access : Access) (p : Expr) : Prop where
  unhindered : g.executor.Unhindered I
  ready : g.Ready I .current g.state
  id_lt : g.state.id < g.executor.nextStateId
  removed_lt : ∀ id ∈ g.executor.removed, id < g.executor.nextStateId
  fits : access.Fits g.state
  address : p.IsAddress
  /-- The functions on the stack are functions of the program. -/
  trace : ∃ t, g.state.stackTrace g.executor.program = .ok t

section

variable (h : access.Posed I g p) (hm : g.state.memory.Addressable)
include h hm

theorem Posed.exists_offset (hx : x ∈ g.state.memory.toList) :
    ∃ offset, x.object.offset p = .ok offset ∧ offset.IsAddress ∧
      ∀ a : Assignment, a.free → access.Inside a p x →
        a.val offset = a.val p - x.object.address ∧ a.val offset + access.bytes ≤ x.object.size := by
  obtain ⟨q, hq, rfl⟩ := AddressSpace.mem_toList.1 hx
  obtain ⟨offset, hoffset, haddress, hval⟩ := MemoryObject.exists_offset
    (hm.address_eq hq ▸ hm.address_lt hq) h.address
  refine ⟨offset, hoffset, haddress, fun a ha hin ↦ ?_⟩
  have hin' := hin.2
  rw [hval ha, if_pos hin.1]
  exact ⟨rfl, by have := hin.1; omega⟩

theorem Posed.exists_condition (hx : x ∈ g.state.memory.toList) :
    ∃ e, x.object.pointerAccessInside p access.bytes = .ok e ∧ e.Means (access.Inside · p x) := by
  obtain ⟨q, hq, rfl⟩ := AddressSpace.mem_toList.1 hx
  exact MemoryObject.exists_pointerAccessInside (hm.object_stop hq) (hm.sizes q hq) h.address h.fits.bytes_pos

theorem Posed.pointsInto {q : Entry} (hq : q ∈ g.state.memory.entries) (hin : access.Inside a p q.2) :
    AddressSpace.PointsInto a p q := by
  have hpos := h.fits.bytes_pos
  obtain ⟨hstart, hstop⟩ := hin
  rw [hm.address_eq hq] at hstart hstop
  refine ⟨hstart, ?_⟩
  rw [Entry.stop]
  omega

theorem Posed.eq_of_pointsInto {q : Entry} (hq : q ∈ g.state.memory.entries)
    (hpoints : AddressSpace.PointsInto a p q) (hy : y ∈ g.state.memory.toList) (hin : access.Inside a p y) :
    q.2 = y := by
  obtain ⟨r, hr, rfl⟩ := AddressSpace.mem_toList.1 hy
  rw [hm.spaced.eq_of_contains hq hr hpoints (h.pointsInto hm hr hin)]

end

/-- The access can also be followed into every case: no search lasts so long that it is cut off, objects lie
apart, and all bytes of an object have an index. -/
structure Followable (I : Inputs) (g : Focus σ) (access : Access) (p : Expr) : Prop
    extends Access.Posed I g access p where
  inTime : ∀ i j, Solver.exceeds g.executor.solver.timeout (g.executor.solver.clock i)
    (g.executor.solver.clock j) = false
  memory : g.state.memory.Addressable
  proper : ∀ x ∈ g.state.memory.toList, x.Proper Anything

theorem Followable.exists_trace {program : Program} (h : access.Followable I g p)
    (hprogram : program = g.executor.program) (hdata : g.state.SameData s) :
    ∃ t, s.stackTrace program = .ok t := by
  obtain ⟨t, ht⟩ := h.trace
  refine ⟨t, ?_⟩
  rw [hdata.stackTrace_eq, hprogram, ht]

end Access

namespace Exec

variable {g f : Focus σ} {access : Access} {b : Branch} {s : State}

/-- The access to an object was made or refused in the state at a place, and nothing else changed. -/
structure Handled (I : Inputs) (access : Access) (g : Focus σ) (p : Expr) (x : ObjectState) (b : Branch)
    (s : State) (f f' : Focus σ) : Prop where
  worked : f.Worked b s.id f'
  unforked : f.Unforked f'
  outcome : ∃ s', f'.stateAt? b = some s' ∧ s'.id = s.id ∧ s'.constraints = s.constraints ∧
    ∀ a, I.Solves a s.constraints → access.Inside a p x → access.Outcome g f' p x a s'

section

variable (hfollowable : access.Followable I g p) (hx : x ∈ g.state.memory.toList)
include hfollowable hx

theorem ends_perform_handled {offset : Expr} (hoffset : x.object.offset p = .ok offset)
    (hcontinues : g.executor.Continues f.executor) (hready : f.Ready I b s) (hdata : g.state.SameData s)
    (hin : ∃ a, I.Solves a s.constraints ∧ access.Inside a p x) :
    (perform access x.object offset).Ends F (f.view b s) fun r f' ↦
      match r with
      | .ok _ => Handled I access g p x b s f (f.back b f')
      | .error e => (settle e).Ends F f' fun r f'' ↦
        r = .ok () ∧ Handled I access g p x b s f (f.back b f'') := by
  obtain ⟨_, hoffset', haddress, hval⟩ := hfollowable.exists_offset hfollowable.memory hx
  obtain rfl := Except.ok.inj (hoffset.symm.trans hoffset')
  obtain ⟨a, ha, hin⟩ := hin
  refine ends_perform hfollowable.memory hx (hfollowable.proper x hx) hfollowable.fits hdata haddress
    ⟨a, ha.free, (hval a ha.free hin).2⟩ (fun hallowed s' hid hc hmade ↦ ?_) fun hforbidden ↦ ?_
  · refine ⟨Focus.Advanced.worked ⟨.refl _, fun _ _ ↦ rfl, fun _ h ↦ .inl h⟩, ⟨rfl, rfl⟩, s',
      Focus.stateAt?_back .., hid, hc, fun a ha hin ↦ ⟨fun _ ↦ ⟨?_, ?_⟩, fun h ↦ (hallowed h).elim⟩⟩
    · rw [hid]
      exact hready.live
    · obtain ⟨heq, hin⟩ := hval a ha.free hin
      rw [← heq]
      exact hmade a ha.free hin
  · refine ends_terminateOnError (f.view b s) hready.live hready.valid hready.satisfiable
      (hfollowable.unhindered.continues hcontinues).exact
      (hfollowable.exists_trace hcontinues.program_eq hdata) fun f' hadvanced hunforked hstate hended hreports ↦ ?_
    refine ⟨rfl, hadvanced.worked, ⟨hunforked.nextStateId_eq, hunforked.tree_eq⟩, s, ?_, rfl, rfl,
      fun a _ _ ↦ ⟨fun h ↦ (h hforbidden).elim, fun _ ↦ ⟨hended, Executor.Reports.before hcontinues hreports⟩⟩⟩
    rw [Focus.stateAt?_back, hstate]
    rfl

theorem ends_handle (hcontinues : g.executor.Continues f.executor) (hready : f.Ready I b s)
    (hdata : g.state.SameData s) (hin : ∃ a, I.Solves a s.constraints ∧ access.Inside a p x) :
    (onBranch b (do perform access x.object (← x.object.offset p))).Ends F f fun r f' ↦
      (∃ o, r = .ok o) ∧ Handled I access g p x b s f f' := by
  obtain ⟨offset, hoffset, -⟩ := hfollowable.exists_offset hfollowable.memory hx
  refine ends_onBranch hready.at_eq hready.live (ends_seq (ends_lift (Checked.ends_of_eq hoffset ?_)))
  refine (ends_perform_handled hfollowable hx hoffset hcontinues hready hdata hin).mono fun r f' h ↦ ?_
  cases r with
  | ok _ => exact ⟨⟨_, rfl⟩, h⟩
  | error e =>
    refine h.mono fun r f'' h' ↦ ?_
    obtain ⟨rfl, h'⟩ := h'
    exact ⟨⟨_, rfl⟩, h'⟩

end

/-! ## One object after the other -/

/-- The loop of `accessEach`. -/
abbrev accessObjects (access : Access) (p : Expr) (objects : List ObjectState) (rest : Option Branch) :
    Exec σ (List Unit × Option Branch) :=
  eachObject (·.pointerAccessInside p access.bytes)
    (fun b o ↦ onBranch b do perform access o (← o.offset p)) (objects.map (·.object)) rest

/-- The state at a place is like the one that was there at first, but for its constraints. -/
structure Untouched (I : Inputs) (g f : Focus σ) (b : Branch) (s : State) : Prop where
  result : g.Result f b
  ready : f.Ready I b s
  id_eq : s.id = b.idFrom g.state.id
  data : g.state.SameData s

theorem Untouched.worked_removed_lt {f' : Focus σ} (hc : Untouched I g f b s)
    (hid : g.state.id < g.executor.nextStateId) (hle : g.executor.nextStateId ≤ f.executor.nextStateId)
    (hlt : ∀ id ∈ f.executor.removed, id < f.executor.nextStateId) (hw : f.Worked b s.id f') :
    ∀ id ∈ f'.executor.removed, id < f'.executor.nextStateId := by
  intro id hmem
  refine Nat.lt_of_lt_of_le ?_ hw.continues.next_le
  obtain hmem | rfl := hw.removed id hmem
  · exact hlt id hmem
  · rw [hc.id_eq]
    exact hc.result.idFrom_lt hid hle

theorem Untouched.kept {f' : Focus σ} {b' : Branch} {s' : State} (hc' : Untouched I g f b' s')
    (hc : Untouched I g f b s) (hid : g.state.id < g.executor.nextStateId) (hw : f.Worked b s.id f')
    (hu : f.Unforked f') (hne : b' ≠ b) : Untouched I g f' b' s' where
  result := hc'.result.of_eq hu.nextStateId_eq
  ready := by
    refine hc'.ready.kept hw hu hne ?_
    rw [hc'.id_eq, hc.id_eq]
    exact hc.result.idFrom_ne hid hc'.result hne
  id_eq := hc'.id_eq
  data := hc'.data

/-- The objects `done` were gone through. A solution where the access lies inside one of them leads to a
state that was told so, and any other one leads to the rest. -/
structure Divided (I : Inputs) (access : Access) (g : Focus σ) (p : Expr) (a : Assignment)
    (done : List ObjectState) (rest : Option Branch) (f : Focus σ) : Prop where
  continues : g.executor.Continues f.executor
  removed_lt : ∀ id ∈ f.executor.removed, id < f.executor.nextStateId
  untouched : ∀ b, rest = some b → ∃ s, Untouched I g f b s
  leads : ∃ b s, g.Leads I f a b s ∧
    ((rest = some b ∧ ∀ x ∈ done, ¬access.Inside a p x) ∨
      (rest ≠ some b ∧ ∃ x ∈ done, access.Inside a p x ∧ access.Outcome g f p x a s))

section

variable {done : List ObjectState} {rest : Option Branch} {f' : Focus σ} {s₁ s₂ : State}
  {condition : Expr} (hfollowable : access.Followable I g p)
include hfollowable

theorem divided_nil {solver : Solver σ} (hsame : g.executor.solver.Same solver)
    (ha : I.Solves a g.state.constraints) :
    Divided I access g p a [] (some .current) (g.withSolver solver) where
  continues := .withSolver hsame
  removed_lt := hfollowable.removed_lt
  untouched := by
    rintro _ ⟨⟩
    have hready := hfollowable.ready
    exact ⟨g.state, trivial, ⟨rfl, trivial, hready.live, hready.valid, hready.satisfiable, hready.leaf,
      hready.enabled⟩, rfl, .refl _⟩
  leads := by
    refine ⟨.current, g.state, ⟨trivial, rfl, rfl, ha, fun b' s' hb' _ _ ↦ ?_⟩, .inl ⟨rfl, by simp⟩⟩
    cases b' with
    | current => rfl
    | forked id => exact absurd hb'.2 (Nat.not_lt_of_le hb'.1)

theorem Untouched.outcome_worked {b₀ : Branch} {s₀ : State} (hc : Untouched I g f b s)
    (hw : f.Worked b s.id f') (hl : g.Leads I f a b₀ s₀) (hne : b₀ ≠ b) (h : access.Outcome g f p x a s₀) :
    access.Outcome g f' p x a s₀ := by
  refine h.worked hw ?_
  rw [hl.id_eq, hc.id_eq]
  exact hc.result.idFrom_ne hfollowable.id_lt hl.result hne

theorem Divided.asked (h : Divided I access g p a done (some b) f) (hc : Untouched I g f b s)
    (hw : f.Worked b s.id f') (hu : f.Unforked f') (hready : f'.Ready I b s) :
    Divided I access g p a done (some b) f' where
  continues := h.continues.trans hw.continues
  removed_lt := hc.worked_removed_lt hfollowable.id_lt h.continues.next_le h.removed_lt hw
  untouched := by
    rintro _ ⟨⟩
    exact ⟨s, hc.result.of_eq hu.nextStateId_eq, hready, hc.id_eq, hc.data⟩
  leads := by
    obtain ⟨b₀, s₀, hl, hout⟩ := h.leads
    obtain ⟨hne, hl'⟩ | ⟨rfl, rfl, hl'⟩ :=
      hl.kept hw hu.nextStateId_eq hc.ready.at_eq hready.at_eq rfl rfl
    · refine ⟨b₀, s₀, hl', hout.imp_right fun ⟨hrest, y, hy, hin, hout⟩ ↦ ⟨hrest, y, hy, hin, ?_⟩⟩
      exact hc.outcome_worked hfollowable hw hl hne hout
    · exact ⟨b₀, s₀, hl', hout.imp_right fun ⟨hrest, _⟩ ↦ (hrest rfl).elim⟩

omit hfollowable in
theorem Divided.missed (h : Divided I access g p a done (some b) f) (hc : Untouched I g f b s)
    (hnone : ∀ a, I.Solves a s.constraints → ¬access.Inside a p x) :
    Divided I access g p a (done ++ [x]) (some b) f where
  continues := h.continues
  removed_lt := h.removed_lt
  untouched := h.untouched
  leads := by
    obtain ⟨b₀, s₀, hl, ⟨hrest, hdone⟩ | ⟨hrest, y, hy, hout⟩⟩ := h.leads
    · refine ⟨b₀, s₀, hl, .inl ⟨hrest, List.forall_mem_append.2 ⟨hdone, ?_⟩⟩⟩
      obtain rfl := Option.some.inj hrest
      obtain rfl := Option.some.inj (hl.at_eq.symm.trans hc.ready.at_eq)
      simpa using hnone a hl.solves
    · exact ⟨b₀, s₀, hl, .inr ⟨hrest, y, by simp [hy], hout⟩⟩

/-- The solutions that point into an object lead to a state where the access is still to be made. -/
structure Pending (I : Inputs) (access : Access) (g : Focus σ) (p : Expr) (a : Assignment)
    (done : List ObjectState) (x : ObjectState) (b : Branch) (s : State) (rest : Option Branch)
    (f : Focus σ) : Prop where
  continues : g.executor.Continues f.executor
  removed_lt : ∀ id ∈ f.executor.removed, id < f.executor.nextStateId
  pending : Untouched I g f b s
  untouched : ∀ b', rest = some b' → b' ≠ b ∧ ∃ s', Untouched I g f b' s'
  leads : ∃ b₀ s₀, g.Leads I f a b₀ s₀ ∧
    ((b₀ ≠ b ∧ rest = some b₀ ∧ ∀ y ∈ done ++ [x], ¬access.Inside a p y) ∨
      (b₀ = b ∧ access.Inside a p x) ∨
        (b₀ ≠ b ∧ rest ≠ some b₀ ∧ ∃ y ∈ done, access.Inside a p y ∧ access.Outcome g f p y a s₀))

omit hfollowable in
theorem Divided.pending (h : Divided I access g p a done (some b) f) (hc : Untouched I g f b s)
    (hall : ∀ a, I.Solves a s.constraints → access.Inside a p x) :
    Pending I access g p a done x b s none f where
  continues := h.continues
  removed_lt := h.removed_lt
  pending := hc
  untouched := nofun
  leads := by
    obtain ⟨b₀, s₀, hl, ⟨hrest, -⟩ | ⟨hrest, hout⟩⟩ := h.leads
    · obtain rfl := Option.some.inj hrest
      obtain rfl := Option.some.inj (hl.at_eq.symm.trans hc.ready.at_eq)
      exact ⟨b, s₀, hl, .inr (.inl ⟨rfl, hall a hl.solves⟩)⟩
    · exact ⟨b₀, s₀, hl, .inr (.inr ⟨fun heq ↦ hrest (by rw [heq]), nofun, hout⟩)⟩

theorem Divided.split (h : Divided I access g p a done (some b) f) (hc : Untouched I g f b s)
    (hmeans : condition.Means (access.Inside · p x)) (hw : f.Worked b s.id f')
    (hnext : f'.executor.nextStateId = f.executor.nextStateId + 1) (hready₁ : f'.Ready I b s₁)
    (hready₂ : f'.Ready I (.forked f.executor.nextStateId) s₂) (hid₁ : s₁.id = s.id)
    (hid₂ : s₂.id = f.executor.nextStateId) (hdata₁ : s.SameData s₁) (hdata₂ : s.SameData s₂)
    (h₁ : ∀ a, I.Solves a s₁.constraints ↔ I.Solves a s.constraints ∧ a.val condition ≠ 0)
    (h₂ : ∀ a, I.Solves a s₂.constraints ↔ I.Solves a s.constraints ∧ a.val condition = 0) :
    Pending I access g p a done x b s₁ (some (.forked f.executor.nextStateId)) f' := by
  have hnew : ∀ {b'}, g.Result f b' → b' ≠ .forked f.executor.nextStateId := by
    rintro _ hb' rfl
    exact Nat.lt_irrefl _ hb'.2
  refine ⟨h.continues.trans hw.continues,
    hc.worked_removed_lt hfollowable.id_lt h.continues.next_le h.removed_lt hw,
    ⟨hc.result.succ hnext, hready₁, hid₁.trans hc.id_eq, hc.data.trans hdata₁⟩, ?_, ?_⟩
  · rintro _ ⟨⟩
    exact ⟨(hnew hc.result).symm, s₂, ⟨h.continues.next_le, hnext ▸ Nat.lt_succ_self _⟩, hready₂, hid₂,
      hc.data.trans hdata₂⟩
  · obtain ⟨b₀, s₀, hl, hout⟩ := h.leads
    have hsplit := hl.split hw h.continues.next_le hnext hc.result hc.ready.at_eq hready₁.at_eq hready₂.at_eq
      hid₁ hid₂ h₁ h₂
    obtain ⟨hne, hl'⟩ | ⟨rfl, rfl, hcond, hl'⟩ | ⟨rfl, rfl, hcond, hl'⟩ := hsplit
    · refine ⟨b₀, s₀, hl', .inr (.inr ⟨hne, ?_, ?_⟩)⟩
      · exact fun heq ↦ hnew hl.result (Option.some.inj heq).symm
      · obtain ⟨hrest, -⟩ | ⟨-, y, hy, hin, hout⟩ := hout
        · exact absurd (Option.some.inj hrest).symm hne
        · exact ⟨y, hy, hin, hc.outcome_worked hfollowable hw hl hne hout⟩
    · exact ⟨b₀, s₁, hl', .inr (.inl ⟨rfl, (hmeans.val_iff hl.solves.free).1 hcond⟩)⟩
    · refine ⟨_, s₂, hl', .inl ⟨(hnew hl.result).symm, rfl, List.forall_mem_append.2 ⟨?_, ?_⟩⟩⟩
      · obtain ⟨-, hdone⟩ | ⟨hrest, -⟩ := hout
        · exact hdone
        · exact (hrest rfl).elim
      · simpa using fun hin ↦ (hmeans.val_iff hl.solves.free).2 hin hcond

theorem Pending.handled (h : Pending I access g p a done x b s rest f)
    (hh : Handled I access g p x b s f f') : Divided I access g p a (done ++ [x]) rest f' := by
  obtain ⟨s', hat', hid, hconstraints, houtcome⟩ := hh.outcome
  have hc := h.pending
  refine ⟨h.continues.trans hh.worked.continues,
    hc.worked_removed_lt hfollowable.id_lt h.continues.next_le h.removed_lt hh.worked, ?_, ?_⟩
  · intro b' hb'
    obtain ⟨hne, z, hz⟩ := h.untouched b' hb'
    exact ⟨z, hz.kept hc hfollowable.id_lt hh.worked hh.unforked hne⟩
  · obtain ⟨b₀, s₀, hl, hout⟩ := h.leads
    obtain ⟨hne, hl'⟩ | ⟨rfl, rfl, hl'⟩ :=
      hl.kept hh.worked hh.unforked.nextStateId_eq hc.ready.at_eq hat' hid hconstraints
    · refine ⟨b₀, s₀, hl', ?_⟩
      obtain ⟨-, hrest, hdone⟩ | ⟨heq, -⟩ | ⟨-, hrest, y, hy, hin, hout⟩ := hout
      · exact .inl ⟨hrest, hdone⟩
      · exact (hne heq).elim
      · exact .inr ⟨hrest, y, by simp [hy], hin, hc.outcome_worked hfollowable hh.worked hl hne hout⟩
    · refine ⟨b₀, s', hl', ?_⟩
      obtain ⟨hne, -⟩ | ⟨-, hin⟩ | ⟨hne, -⟩ := hout
      · exact (hne rfl).elim
      · refine .inr ⟨fun heq ↦ (h.untouched b₀ heq).1 rfl, x, by simp, hin, houtcome a hl.solves hin⟩
      · exact (hne rfl).elim

omit hfollowable in
theorem Divided.of_none (h : Divided I access g p a done none f) (l : List ObjectState) :
    Divided I access g p a (done ++ l) none f where
  continues := h.continues
  removed_lt := h.removed_lt
  untouched := nofun
  leads := by
    obtain ⟨b₀, s₀, hl, ⟨⟨⟩, -⟩ | ⟨hrest, y, hy, hout⟩⟩ := h.leads
    exact ⟨b₀, s₀, hl, .inr ⟨hrest, y, by simp [hy], hout⟩⟩

theorem ends_accessObjects {l : List ObjectState} (hl : ∀ x ∈ l, x ∈ g.state.memory.toList)
    (h : Divided I access g p a done rest f) :
    (accessObjects access p l rest).Ends F f fun r f' ↦ ∃ others remaining, r = .ok (others, remaining) ∧
      Divided I access g p a (done ++ l) remaining f' := by
  induction l generalizing done rest f with
  | nil =>
    refine ends_pure ⟨_, _, rfl, ?_⟩
    rw [List.append_nil]
    exact h
  | cons x l ih =>
    rw [List.forall_mem_cons] at hl
    cases rest with
    | none => exact ends_pure ⟨_, _, rfl, h.of_none _⟩
    | some b =>
      obtain ⟨s, hc⟩ := h.untouched b rfl
      obtain ⟨condition, hcondition, hmeans⟩ := hfollowable.exists_condition hfollowable.memory hl.1
      have hunhindered := hfollowable.unhindered.continues h.continues
      have hnew : f.executor.nextStateId ∉ f.executor.removed := fun hmem ↦
        Nat.lt_irrefl _ (h.removed_lt _ hmem)
      -- what is left to do once the object is done
      have hrest : ∀ {here : List Unit} {outside : Option Branch} {f' : Focus σ},
          Divided I access g p a (done ++ [x]) outside f' → (do
            let r ← accessObjects access p l outside
            return (here ++ r.1, r.2) : Exec σ (List Unit × Option Branch)).Ends F f'
            fun r f' ↦ ∃ others remaining, r = .ok (others, remaining) ∧
              Divided I access g p a (done ++ x :: l) remaining f' := by
        intro here outside f' h'
        refine ends_bind (ih hl.2 h') ?_ ?_
        · rintro _ f'' ⟨others, remaining, ⟨⟩, h''⟩
          rw [List.append_assoc] at h''
          exact ends_pure ⟨_, _, rfl, h''⟩
        · rintro _ _ ⟨_, _, ⟨⟩, -⟩
      have hwork : ∀ {s' : State} {outside : Option Branch} {f' : Focus σ},
          Pending I access g p a done x b s' outside f' →
          (∃ a, I.Solves a s'.constraints ∧ access.Inside a p x) → (do
            let here ← onBranch b do perform access x.object (← x.object.offset p)
            let r ← accessObjects access p l outside
            return (here.toList ++ r.1, r.2) : Exec σ (List Unit × Option Branch)).Ends F f'
            fun r f' ↦ ∃ others remaining, r = .ok (others, remaining) ∧
              Divided I access g p a (done ++ x :: l) remaining f' := by
        intro s' outside f' h' hin
        have hc' := h'.pending
        refine ends_bind (ends_handle hfollowable hl.1 h'.continues hc'.ready hc'.data hin) ?_ ?_
        · rintro here f'' ⟨-, hh⟩
          exact hrest (h'.handled hfollowable hh)
        · rintro _ _ ⟨⟨_, ⟨⟩⟩, -⟩
      rw [accessObjects, List.map_cons, eachObject]
      refine ends_seq (ends_lift (Checked.ends_of_eq hcondition ?_))
      refine ends_seq (ends_forkOn hc.ready hunhindered.toUnrestrained hnew hmeans.truth ?_ ?_ ?_)
      -- every solution of the rest points into the object
      · intro f' hw hu hready hall
        have hin : ∀ a, I.Solves a s.constraints → access.Inside a p x := fun a ha ↦
          (hmeans.val_iff ha.free).1 (hall a ha)
        have hc' : Untouched I g f' b s := ⟨hc.result.of_eq hu.nextStateId_eq, hready, hc.id_eq, hc.data⟩
        exact hwork ((h.asked hfollowable hc hw hu hready).pending hc' hin)
          (hready.satisfiable.imp fun a ha ↦ ⟨ha, hin a ha⟩)
      -- none of them does
      · intro f' hw hu hready hnone
        have hc' : Untouched I g f' b s := ⟨hc.result.of_eq hu.nextStateId_eq, hready, hc.id_eq, hc.data⟩
        refine ends_bind_ok rfl (hrest ((h.asked hfollowable hc hw hu hready).missed hc' fun a ha hin ↦ ?_))
        exact (hmeans.val_iff ha.free).2 hin (hnone a ha)
      -- some do and some do not
      · intro f' s₁ s₂ hw hnext hready₁ hready₂ hid₁ hid₂ hdata₁ hdata₂ h₁ h₂
        refine hwork (h.split hfollowable hc hmeans hw hnext hready₁ hready₂ hid₁ hid₂ hdata₁ hdata₂ h₁ h₂)
          ?_
        obtain ⟨a, ha⟩ := hready₁.satisfiable
        exact ⟨a, ha, (hmeans.val_iff ha.free).1 ((h₁ a).1 ha).2⟩

/-! ## Whole accesses -/

/-- A solution leads to one state. It made the access to the object that has the bytes, or ended because it
must not do so or because no object has them. -/
structure Follows (I : Inputs) (access : Access) (g f : Focus σ) (p : Expr) (a : Assignment) (b : Branch)
    (s : State) : Prop where
  leads : g.Leads I f a b s
  inside : ∀ x ∈ g.state.memory.toList, access.Inside a p x → access.Outcome g f p x a s
  outside : (∀ x ∈ g.state.memory.toList, ¬access.Inside a p x) → g.Failed f s .outOfBoundPointer

theorem eq_of_inside (hx : x ∈ g.state.memory.toList) (hy : y ∈ g.state.memory.toList)
    (hxin : access.Inside a p x) (hyin : access.Inside a p y) : x = y := by
  obtain ⟨q, hq, rfl⟩ := AddressSpace.mem_toList.1 hx
  have hpoints := hfollowable.pointsInto hfollowable.memory hq hxin
  exact hfollowable.eq_of_pointsInto hfollowable.memory hq hpoints hy hyin

theorem Follows.of_outcome (hl : g.Leads I f a b s) (hx : x ∈ g.state.memory.toList)
    (hin : access.Inside a p x) (hout : access.Outcome g f p x a s) : Follows I access g f p a b s where
  leads := hl
  inside _ hy hyin := eq_of_inside hfollowable hx hy hin hyin ▸ hout
  outside hnone := (hnone x hx hin).elim

theorem Divided.follows (h : Divided I access g p a done none f)
    (hdone : ∀ x ∈ done, x ∈ g.state.memory.toList) : ∃ b s, Follows I access g f p a b s := by
  obtain ⟨b, s, hl, ⟨⟨⟩, -⟩ | ⟨-, x, hx, hin, hout⟩⟩ := h.leads
  exact ⟨b, s, .of_outcome hfollowable hl (hdone x hx) hin hout⟩

theorem Divided.ended (h : Divided I access g p a done (some b) f) (hc : Untouched I g f b s)
    (hdone : ∀ x ∈ done, x ∈ g.state.memory.toList)
    (hall : ∀ x ∈ g.state.memory.toList, access.Inside a p x → x ∈ done) (hw : f.Worked b s.id f')
    (hu : f.Unforked f') (hat : f'.stateAt? b = some s) (hended : s.id ∈ f'.executor.removed)
    (hreports : f.executor.Reports f'.executor s.id .outOfBoundPointer) :
    ∃ b s, Follows I access g f' p a b s := by
  obtain ⟨b₀, s₀, hl, hout⟩ := h.leads
  obtain ⟨hne, hl'⟩ | ⟨rfl, rfl, hl'⟩ := hl.kept hw hu.nextStateId_eq hc.ready.at_eq hat rfl rfl
  · obtain ⟨hrest, -⟩ | ⟨-, x, hx, hin, hout⟩ := hout
    · exact absurd (Option.some.inj hrest).symm hne
    · exact ⟨b₀, s₀, .of_outcome hfollowable hl' (hdone x hx) hin
        (hc.outcome_worked hfollowable hw hl hne hout)⟩
  · obtain ⟨-, hnone⟩ | ⟨hrest, -⟩ := hout
    · exact ⟨b₀, s₀, hl', fun x hx hin ↦ (hnone x (hall x hx hin) hin).elim, fun _ ↦
        ⟨hended, Executor.Reports.before h.continues hreports⟩⟩
    · exact (hrest rfl).elim

omit hfollowable in
theorem ends_resolve_of_run {solver solver' : Solver σ} {P : Except PathError Resolution → Focus σ → Prop}
    {r : Resolution} (hrun : (g.state.memory.resolve g.state.constraints p g.executor.config.maxResolutions
      solver.timeout).run solver = .ok (r, solver')) (h : P (.ok r) (g.withSolver solver')) :
    (resolve p).Ends F (g.withSolver solver) P := by
  refine ends_bind_ok rfl ?_
  change (liftM ((g.state.memory.resolve g.state.constraints p g.executor.config.maxResolutions
    solver.timeout).run solver) >>= _ : Exec σ Resolution).Ends F _ P
  exact ends_seq (ends_lift (Checked.ends_of_eq hrun (ends_bind_ok rfl (ends_pure h))))

theorem ends_resolve {solver : Solver σ} {P : Except PathError Resolution → Focus σ → Prop}
    (hsame : g.executor.solver.Same solver)
    (h : ∀ r solver', g.executor.solver.Same solver' →
      AddressSpace.Resolved I g.state.memory g.state.constraints p False r →
      P (.ok r) (g.withSolver solver')) : (resolve p).Ends F (g.withSolver solver) P := by
  have hunhindered := hfollowable.unhindered
  have hinTime : ∀ i j, Solver.exceeds solver.timeout (g.executor.solver.clock i)
      (g.executor.solver.clock j) = true → False := fun i j h ↦ by
    rw [hsame.timeout_eq, hfollowable.inTime i j] at h
    cases h
  obtain ⟨r, solver', hrun, hsame', hr⟩ := AddressSpace.findsBy_resolve hfollowable.ready.valid
    hfollowable.ready.satisfiable hfollowable.memory hfollowable.address id (absurd rfl) hinTime solver
    (hsame.backend_eq ▸ hunhindered.exact) hsame.clock_eq
  rw [← hunhindered.maxResolutions] at hrun
  exact ends_resolve_of_run hrun (h r solver' (hsame.trans hsame') hr)

theorem ends_accessEach {solver : Solver σ} (hsame : g.executor.solver.Same solver)
    (ha : I.Solves a g.state.constraints) :
    (accessEach access p).Ends F (g.withSolver solver) fun r f ↦
      r = .ok () ∧ ∃ b s, Follows I access g f p a b s := by
  refine ends_seq (ends_resolve hfollowable hsame fun resolution solver' hsame' hresolved ↦ ?_)
  refine ends_seq (ends_lift (Checked.ends_of_eq hfollowable.fits.byteCountChecked_eq ?_))
  have hdone : ∀ x ∈ resolution.objects, x ∈ g.state.memory.toList := by
    intro x hx
    obtain ⟨q, hq, rfl, -⟩ := hresolved.hit x hx
    exact AddressSpace.mem_toList.2 ⟨q, hq, rfl⟩
  refine ends_bind (ends_accessObjects hfollowable hdone (divided_nil hfollowable hsame' ha)) ?_ ?_
  · rintro _ f ⟨others, remaining, ⟨⟩, hdivided⟩
    rw [List.nil_append] at hdivided
    dsimp only
    cases remaining with
    | none => exact ends_pure ⟨rfl, hdivided.follows hfollowable hdone⟩
    | some b =>
      obtain ⟨s, hc⟩ := hdivided.untouched b rfl
      have hexact := (hfollowable.unhindered.continues hdivided.continues).exact
      have hcomplete : resolution.incomplete = false := Bool.eq_false_iff.2 hresolved.cutOff
      have hall : ∀ x ∈ g.state.memory.toList, access.Inside a p x → x ∈ resolution.objects := by
        intro x hx hin
        obtain ⟨q, hq, rfl⟩ := AddressSpace.mem_toList.1 hx
        exact hresolved.covers hcomplete q hq ⟨a, ha, hfollowable.pointsInto hfollowable.memory hq hin⟩
      refine ends_bind (P := fun r f' ↦ (∃ o, r = .ok o) ∧ ∃ b s, Follows I access g f' p a b s)
        (ends_onBranch hc.ready.at_eq hc.ready.live ?_) (fun _ _ h ↦ ends_pure ⟨rfl, h.2⟩)
        fun _ _ ⟨⟨_, h⟩, _⟩ ↦ nomatch h
      rw [if_neg (by simp [hcomplete])]
      refine ends_seq (ends_addressInfo hc.ready.valid hc.ready.satisfiable hexact
        hfollowable.address.wellFormed fun info solver'' hsame'' ↦ ends_bind_ok rfl ?_)
      refine ends_terminateOnError ((f.view b s).withSolver solver'') hc.ready.live hc.ready.valid
        hc.ready.satisfiable (hsame''.backend_eq ▸ hexact)
        (hfollowable.exists_trace hdivided.continues.program_eq hc.data) ?_
      intro f' hadvanced hunforked hstate hended hreports
      have hworked : f.Worked b s.id (f.back b f') :=
        Focus.Advanced.worked (Focus.Advanced.trans (.withSolver hsame'') rfl hadvanced)
      refine ⟨⟨_, rfl⟩, hdivided.ended hfollowable hc hdone hall hworked
        ⟨hunforked.nextStateId_eq, hunforked.tree_eq⟩ ?_ hended hreports⟩
      rw [Focus.stateAt?_back, hstate]
      rfl
  · rintro _ _ ⟨_, _, ⟨⟩, -⟩

omit hfollowable in
theorem ends_findObject (hposed : access.Posed I g p) (hm : g.state.memory.Addressable)
    {P : Except PathError (Option MemoryObject × Expr) → Focus σ → Prop}
    (hnone : (∀ q ∈ g.state.memory.entries, ¬AddressSpace.Hit I g.state.constraints p q) →
      ∀ solver, g.executor.solver.Same solver → P (.ok (none, p)) (g.withSolver solver))
    (hsome : ∀ q ∈ g.state.memory.entries, AddressSpace.Hit I g.state.constraints p q →
      ∀ solver, g.executor.solver.Same solver → P (.ok (some q.2.object, p)) (g.withSolver solver)) :
    (findObject p).Ends F g P := by
  have hready := hposed.ready
  refine ends_bind_ok rfl (ends_seq (ends_ask (AddressSpace.answers_resolveSymbolic hready.valid
    hready.satisfiable hm hposed.address) hposed.unhindered.exact fun r solver hsame hr ↦ ?_))
  cases r with
  | error _ => exact hr.elim
  | ok found =>
    cases found with
    | none => exact ends_pure (hnone (hr.missed rfl) solver hsame)
    | some x =>
      obtain ⟨q, hq, rfl, hhit⟩ := hr.hit x rfl
      exact ends_pure (hsome q hq hhit solver hsame)

/-- What is left of an access once the pointer and the value are simplified. -/
abbrev accessFrom (config : Config) (access : Access) (p : Expr) : Exec σ Unit := do
  let (found, address) ← findObject p
  match found with
  | none => accessEach access address
  | some object =>
    let offset ← object.offset address
    let large := config.maxSymbolicArraySize ≠ 0 ∧ config.maxSymbolicArraySize ≤ object.size
    let offset ← if large ∧ !offset.isConst then toConstant offset else pure offset
    let inside ← object.accessInside offset access.bytes
    if ← query (Solver.mustBeTrue · inside) then perform access object offset
    else accessEach access address

omit hfollowable in
/-- The access is made at once in the object that all solutions point into, if there is one. Else it is made
to one object after the other. -/
theorem ends_accessFrom {P : Except PathError Unit → Focus σ → Prop} (hposed : access.Posed I g p)
    (hm : g.state.memory.Addressable)
    (hone : ∀ x ∈ g.state.memory.toList, ∀ offset, x.object.offset p = .ok offset →
      (∀ a, I.Solves a g.state.constraints → access.Inside a p x) → ∀ solver, g.executor.solver.Same solver →
        (perform access x.object offset).Ends F (g.withSolver solver) P)
    (heach : (∀ x ∈ g.state.memory.toList, ∃ a, I.Solves a g.state.constraints ∧ ¬access.Inside a p x) →
      ∀ solver, g.executor.solver.Same solver → (accessEach access p).Ends F (g.withSolver solver) P) :
    (accessFrom g.executor.config access p).Ends F g P := by
  have hready := hposed.ready
  refine ends_seq (ends_findObject hposed hm (fun hmissed solver hsame ↦ heach (fun x hx ↦ ?_) solver hsame)
    fun q hq hhit solver hsame ↦ ?_)
  · obtain ⟨q, hq, rfl⟩ := AddressSpace.mem_toList.1 hx
    obtain ⟨a, ha⟩ := hready.satisfiable
    exact ⟨a, ha, fun hin ↦ hmissed q hq ⟨a, ha, hposed.pointsInto hm hq hin⟩⟩
  · have hx : q.2 ∈ g.state.memory.toList := AddressSpace.mem_toList.2 ⟨q, hq, rfl⟩
    obtain ⟨offset, hoffset, -⟩ := hposed.exists_offset hm hx
    obtain ⟨inside, hinside, hmeans⟩ := hposed.exists_condition hm hx
    rw [MemoryObject.pointerAccessInside, hoffset] at hinside
    dsimp only
    refine ends_seq (ends_lift (Checked.ends_of_eq hoffset ?_))
    dsimp only
    rw [if_neg (fun h ↦ h.1.1 hposed.unhindered.maxSymbolicArraySize)]
    refine ends_bind_ok rfl (ends_seq (ends_lift (Checked.ends_of_eq hinside ?_)))
    refine ends_seq (ends_query (Solver.answers_mustBeTrue hready.valid hready.satisfiable hmeans.truth.1)
      (hsame.backend_eq ▸ hposed.unhindered.exact) (fun must solver' hsame' hmust ↦ ?_) fun _ _ h ↦ h.elim)
    cases must with
    | true =>
      have hin : ∀ a, I.Solves a g.state.constraints → access.Inside a p q.2 := fun a ha ↦
        (hmeans.val_iff ha.free).1 (hmust.1 rfl a ha)
      exact hone _ hx offset hoffset hin _ (hsame.trans hsame')
    | false =>
      refine heach (fun y hy ↦ Classical.byContradiction fun hnone ↦ ?_) _ (hsame.trans hsame')
      have hall : ∀ a, I.Solves a g.state.constraints → access.Inside a p y := by simpa using hnone
      obtain ⟨a, ha, hpoints⟩ := hhit
      obtain rfl := hposed.eq_of_pointsInto hm hq hpoints hy (hall a ha)
      exact Bool.false_ne_true (hmust.2 fun a ha ↦ (hmeans.val_iff ha.free).2 (hall a ha))

theorem ends_access_simplified (ha : I.Solves a g.state.constraints) :
    (accessFrom g.executor.config access p).Ends F g fun r f ↦
      match r with
      | .ok _ => ∃ b s, Follows I access g f p a b s
      | .error e => (settle e).Ends F f fun r f ↦ r = .ok () ∧ ∃ b s, Follows I access g f p a b s := by
  have hready := hfollowable.ready
  refine ends_accessFrom hfollowable.toPosed hfollowable.memory (fun x hx offset hoffset hin solver hsame ↦ ?_)
    fun _ solver hsame ↦ ?_
  · have hdivided : Divided I access g p a [] (some .current) (g.withSolver solver) :=
      divided_nil hfollowable hsame ha
    obtain ⟨s, hc⟩ := hdivided.untouched .current rfl
    obtain rfl : g.state = s := Option.some.inj hc.ready.at_eq
    have hfollows {f : Focus σ} (hh : Handled I access g p x .current g.state (g.withSolver solver) f) :
        ∃ b s, Follows I access g f p a b s :=
      ((hdivided.pending hc hin).handled hfollowable hh).follows hfollowable (by simpa using hx)
    refine (ends_perform_handled hfollowable hx hoffset hdivided.continues hc.ready hc.data
      ⟨a, ha, hin a ha⟩).mono fun r f h ↦ ?_
    cases r with
    | ok _ => exact hfollows h
    | error e => exact Ends.mono h fun r f h ↦ ⟨h.1, hfollows h.2⟩
  · refine (ends_accessEach hfollowable hsame ha).mono fun r f h ↦ ?_
    obtain ⟨rfl, h⟩ := h
    exact h

end

/-- The second access is the first one with another expression for its value. -/
inductive Alike (a : Assignment) : Access → Access → Prop
  | load (width : Nat) (r : Register) : Alike a (.load width r) (.load width r)
  | store {v v' : Expr} (hwidth : v'.width = v.width) (hval : a.val v' = a.val v) :
    Alike a (.store v) (.store v')

theorem Follows.congr {access' : Access} {p' : Expr} (h : Follows I access' g f p' a b s)
    (halike : Alike a access access') (hp : a.val p' = a.val p) : Follows I access g f p a b s := by
  have hinside : ∀ x, access'.Inside a p' x ↔ access.Inside a p x := by
    intro x
    unfold Access.Inside Access.bytes
    rw [hp]
    cases halike with
    | load width r => rfl
    | store hwidth hval => rw [Access.width, Access.width, hwidth]
  refine ⟨h.leads, fun x hx hin ↦ ?_, fun hnone ↦ h.outside fun x hx hin ↦ hnone x hx ((hinside x).1 hin)⟩
  have hout := h.inside x hx ((hinside x).2 hin)
  cases halike with
  | load width r => exact ⟨fun hf ↦ hp ▸ hout.made hf, hout.failed⟩
  | store hwidth hval =>
    refine ⟨fun hf ↦ ⟨(hout.made hf).1, ?_⟩, hout.failed⟩
    obtain ⟨y, hy, himage⟩ := (hout.made hf).2
    exact ⟨y, hy, by rw [himage, hp, hval, hwidth]⟩

theorem exists_simplified (h : access.Followable I g p) (ha : I.Solves a g.state.constraints) :
    ∃ p' access', g.state.constraints.simplify p = .ok p' ∧
      access.mapValue g.state.constraints.simplify = .ok access' ∧ access'.Followable I g p' ∧
      access'.bytes = access.bytes ∧ Alike a access access' ∧ a.val p' = a.val p := by
  obtain ⟨p', hp', href⟩ := h.ready.valid.exists_simplify h.address.wellFormed
  have haddress : p'.IsAddress := ⟨href.wellFormed, href.width_eq.trans h.address.width_eq⟩
  have hval := ha.val_eq href
  cases access with
  | load width r =>
    exact ⟨p', .load width r, hp', rfl, ⟨⟨h.unhindered, h.ready, h.id_lt, h.removed_lt, h.fits, haddress,
      h.trace⟩, h.inTime, h.memory, h.proper⟩, rfl, .load .., hval⟩
  | store value =>
    obtain ⟨v', hv', hvref⟩ := h.ready.valid.exists_simplify (e := value) h.fits
    refine ⟨p', .store v', hp', ?_, ⟨⟨h.unhindered, h.ready, h.id_lt, h.removed_lt, hvref.wellFormed,
      haddress, h.trace⟩, h.inTime, h.memory, h.proper⟩, ?_, .store hvref.width_eq (ha.val_eq hvref), hval⟩
    · rw [Access.mapValue, hv']
      rfl
    · rw [Access.bytes, Access.bytes, Access.width, Access.width, hvref.width_eq]

theorem ends_access_of_plain {P : Except PathError Unit → Focus σ → Prop} (hposed : access.Posed I g p)
    (hplain : g.executor.config.simplifySymbolicIndices = false)
    (h : (accessFrom g.executor.config access p).Ends F g P) : (Exec.access access p).Ends F g P := by
  refine ends_bind_ok rfl (ends_seq (ends_lift (Checked.ends_of_eq hposed.fits.byteCountChecked_eq ?_)))
  refine ends_bind_ok rfl ?_
  dsimp only
  rw [if_neg (by rw [hplain]; exact Bool.false_ne_true)]
  exact ends_bind_ok rfl h

theorem ends_access (hfollowable : access.Followable I g p) (ha : I.Solves a g.state.constraints) :
    (tryCatch (Exec.access access p) settle).Ends F g fun r f ↦
      r = .ok () ∧ ∃ b s, Follows I access g f p a b s := by
  refine ends_tryCatch (P := fun r f ↦
    match r with
    | .ok _ => ∃ b s, Follows I access g f p a b s
    | .error e => (settle e).Ends F f fun r f ↦ r = .ok () ∧ ∃ b s, Follows I access g f p a b s)
    ?_ (fun _ _ h ↦ ⟨rfl, h⟩) fun _ _ h ↦ h
  cases hplain : g.executor.config.simplifySymbolicIndices with
  | false => exact ends_access_of_plain hfollowable.toPosed hplain (ends_access_simplified hfollowable ha)
  | true =>
    refine ends_bind_ok rfl (ends_seq (ends_lift (Checked.ends_of_eq hfollowable.fits.byteCountChecked_eq ?_)))
    refine ends_bind_ok rfl ?_
    dsimp only
    rw [if_pos hplain]
    obtain ⟨p', access', hp', haccess', hfollowable', hbytes, halike, hval⟩ :=
      exists_simplified hfollowable ha
    have hcongr : ∀ {f : Focus σ}, (∃ b s, Follows I access' g f p' a b s) →
        ∃ b s, Follows I access g f p a b s := fun ⟨b, s, h⟩ ↦ ⟨b, s, h.congr halike hval⟩
    refine ends_seq (ends_lift (Checked.ends_of_eq hp' ?_))
    refine ends_seq (ends_lift (Checked.ends_of_eq haccess' (ends_bind_ok rfl ?_)))
    rw [← hbytes]
    refine (ends_access_simplified hfollowable' ha).mono fun r f h ↦ ?_
    cases r with
    | ok _ => exact hcongr h
    | error e => exact Ends.mono h fun r f h ↦ ⟨h.1, hcongr h.2⟩

/-- The access ends, and each solution follows it into one state. -/
def Followed (I : Inputs) (access : Access) (g : Focus σ) (p : Expr) : Prop :=
  (tryCatch (Exec.access access p) settle).Returns g fun _ f ↦ ∀ a, I.Solves a g.state.constraints →
    ∃ b s, Follows I access g f p a b s

theorem Follows.state_eq (h : Follows I access g f p a b s)
    (hnext : f.executor.nextStateId = g.executor.nextStateId) : f.state = s := by
  cases b with
  | current => exact Option.some.inj h.leads.at_eq
  | forked id =>
    have hnew := h.leads.result
    exact absurd (Nat.lt_of_lt_of_le hnew.2 (Nat.le_of_eq hnext)) (Nat.not_lt_of_le hnew.1)

theorem not_followed_of_ended (ha : I.Solves a g.state.constraints) (hx : x ∈ g.state.memory.toList)
    (hin : access.Inside a p x) (hallowed : ¬access.Forbidden x)
    (hends : (tryCatch (Exec.access access p) settle).Ends (fun _ ↦ True) g fun _ f ↦
      f.executor.nextStateId = g.executor.nextStateId ∧ f.state.id ∈ f.executor.removed) :
    ¬Followed I access g p := by
  rintro ⟨_, f, hf, h⟩
  obtain ⟨b, s, hfollows⟩ := h a ha
  obtain ⟨hnext, hended⟩ := hends.run.of_eq hf
  rw [hfollows.state_eq hnext] at hended
  exact ((hfollows.inside x hx hin).made hallowed).1 hended

theorem ends_accessEach_of_late {solver : Solver σ} (hposed : access.Posed I g p) (hm : g.state.memory.Addressable)
    (hunknown : p.value? = none) (hbound : g.state.memory.entries ≠ []) (hsame : g.executor.solver.Same solver)
    (hlate : ∀ i j, i < j → Solver.exceeds g.executor.solver.timeout (g.executor.solver.clock i)
      (g.executor.solver.clock j) = true) :
    (accessEach access p).Ends F (g.withSolver solver) fun r f ↦
      r = .ok () ∧ f.executor.nextStateId = g.executor.nextStateId ∧ f.state.id ∈ f.executor.removed := by
  have hready := hposed.ready
  obtain ⟨solver', hrun, hsame'⟩ := AddressSpace.exists_run_resolve_of_late hready.valid
    hready.satisfiable hm hposed.address g.executor.config.maxResolutions solver.timeout
    (hsame.backend_eq ▸ hposed.unhindered.exact) hunknown hbound fun i j hij ↦ by
      rw [hsame.timeout_eq, hsame.clock_eq]
      exact hlate i j hij
  refine ends_seq (ends_resolve_of_run hrun ?_)
  refine ends_seq (ends_lift (Checked.ends_of_eq hposed.fits.byteCountChecked_eq (ends_bind_ok rfl ?_)))
  refine ends_bind (P := fun r f ↦ (∃ o, r = .ok o) ∧ f.executor.nextStateId = g.executor.nextStateId ∧
      f.state.id ∈ f.executor.removed)
    (ends_onBranch (b := .current) rfl hready.live ?_) (fun _ _ h ↦ ends_pure ⟨rfl, h.2⟩)
    fun _ _ ⟨⟨_, h⟩, _⟩ ↦ nomatch h
  exact ends_terminateWith_exact hready.live hready.valid hready.satisfiable
    ((hsame.trans hsame').backend_eq ▸ hposed.unhindered.exact) hposed.trace fun f' hstate hnext hended ↦
      ⟨⟨_, rfl⟩, hnext, hstate ▸ hended⟩

def fourBytes : ObjectState where
  object := { id := 1, address := 4096, size := 4, name := "four" }
  bytes := ⟨#[5, 6, 7, 8]⟩

/-- An object whose last byte has no index of 32 bits. -/
def farByte : ObjectState where
  object := { id := 1, address := 4096, size := 2 ^ 32 + 1, name := "far" }
  bytes := ⟨(Array.replicate (2 ^ 32) 0).push 7⟩

/-- A machine with some objects in memory, and a solver that always answers. -/
noncomputable def holding (memory : AddressSpace) (timeout : Option Nat) : Focus Unit where
  executor := {
    program := ⟨#[⟨"main", 0, false, 1, .defined #[]⟩], #[], #[], 0⟩
    solver := { backend := .omniscient .all, state := (), timeout }
    allocator := { maxSize := 0 }
    states := {}
    tree := .ofState 0
    rng := .ofSeed 1 }
  state := { State.start 0 0 1 with node := some ProcessTree.root, memory }

theorem posed_holding (memory : AddressSpace) (timeout : Option Nat) (hp : p.IsAddress) :
    (Access.load 8 0).Posed .all (holding memory timeout) p where
  unhindered := {
    exact := Backend.exact_omniscient _ _
    seeds := by simp [holding]
    maxDepth := rfl
    maxResolutions := rfl
    maxSymbolicArraySize := rfl
    maxForks := rfl
    inhibitForking := rfl
    memory := .inr rfl }
  ready := {
    at_eq := rfl
    given := trivial
    live := by simp [holding]
    valid := ConstraintSet.valid_empty
    satisfiable := Inputs.satisfiable_empty _
    leaf := by
      rintro n ⟨⟩
      rfl
    enabled := rfl }
  id_lt := Nat.zero_lt_one
  removed_lt := by simp [holding]
  fits := ⟨by decide, _, _, _, rfl, rfl, by decide⟩
  address := hp
  trace := ⟨_, rfl⟩

def inputByte : Expr := .read (.base (.symbolic "x" 1)) (.const 0 32)

/-- A pointer to one of the 256 bytes from the start of the object on. -/
def somewhere : Expr := .binary .add (.pointer 4096) (.zext inputByte 64)

theorem isAddress_somewhere : somewhere.IsAddress :=
  ⟨by simp [somewhere, inputByte, Expr.WellFormed, Updates.WellFormed, Expr.pointer, Expr.word, trunc_eq], rfl⟩

theorem addressable_fourBytes : (AddressSpace.only fourBytes).Addressable :=
  AddressSpace.addressable_only (by decide) (by decide) (by decide)

/-- A pointer to the start of an object or to the byte 2 ^ 32 bytes further on. -/
def nearOrFar : Expr :=
  .binary .add (.pointer 4096) (.zext (.concat (.extract inputByte 0 1) (.const 0 32)) 64)

theorem isAddress_nearOrFar : nearOrFar.IsAddress :=
  ⟨by simp [nearOrFar, inputByte, Expr.WellFormed, Updates.WellFormed, Expr.pointer, Expr.word, trunc_eq], rfl⟩

theorem val_nearOrFar (ha : a.free) : a.val nearOrFar = 4096 + 2 ^ 32 * (a.val inputByte % 2) := by
  have hbit : a.val inputByte % 2 < 2 := Nat.mod_lt _ (by decide)
  rw [nearOrFar, Assignment.val_binary ha, BinOp.fold_add, Assignment.val_pointer (by decide), Assignment.val_zext,
    Assignment.val_concat ha, Assignment.val_extract ha, Assignment.val_const, Nat.or_zero, Nat.shiftRight_zero,
    Nat.shiftLeft_eq]
  change (4096 + a.val inputByte % 2 * 2 ^ 32) % 2 ^ 64 = _
  omega

def ofByte (b : UInt8) : Assignment := (Assignment.mk true {}).bind "x" ⟨#[b]⟩

theorem solves_ofByte (b : UInt8) : Inputs.all.Solves (ofByte b) {} := ⟨rfl, by simp [ConstraintSet.toList]⟩

theorem addressable_farByte : (AddressSpace.only farByte).Addressable :=
  AddressSpace.addressable_only (by decide) (by decide) (by decide)

theorem inside_farByte (ha : a.free) : (Access.load 8 0).Inside a nearOrFar farByte := by
  rw [Access.Inside, val_nearOrFar ha]
  change 4096 ≤ _ ∧ _ + 1 ≤ 4096 + (2 ^ 32 + 1)
  omega

theorem size_farByte : farByte.bytes.size = 2 ^ 32 + 1 := by
  change ((Array.replicate (2 ^ 32) (0 : UInt8)).push 7).size = _
  rw [Array.size_push, Array.size_replicate]

theorem getElem?_farByte (i : Nat) : farByte.bytes[i]? = ((Array.replicate (2 ^ 32) (0 : UInt8)).push 7)[i]? :=
  Bytes.getElem?_eq_data _ _

theorem number_farByte : Bytes.number farByte.bytes (2 ^ 32) (byteCount 8) = 7 := by
  have hlast : farByte.bytes[2 ^ 32]? = some 7 := by
    rw [getElem?_farByte, Array.getElem?_push, Array.size_replicate, if_pos rfl]
  rw [show byteCount 8 = 1 from rfl, Bytes.number, Bytes.number, Nat.add_zero, hlast]
  rfl

theorem ends_perform_farByte {f : Focus Unit} {offset : Expr}
    (hoffset : farByte.object.offset nearOrFar = .ok offset)
    (hmemory : f.state.memory = AddressSpace.only farByte) (hregister : f.state.HasRegister 0) :
    (perform (.load 8 0) farByte.object offset).Ends (fun _ ↦ True) f fun r f' ↦ r = .ok () ∧
      f'.executor = f.executor ∧ ∃ v, f'.state.register? 0 = some v ∧ ∀ a : Assignment, a.free → a.val v = 0 := by
  obtain ⟨_, hoffset', haddress, hval⟩ :=
    MemoryObject.exists_offset (o := farByte.object) (by decide) isAddress_nearOrFar
  obtain rfl := Except.ok.inj (hoffset.symm.trans hoffset')
  have hdistance : ∀ a : Assignment, a.free → a.val offset = 2 ^ 32 * (a.val inputByte % 2) := by
    intro a ha
    have hstart : farByte.object.address = 4096 := rfl
    rw [hval ha, val_nearOrFar ha, hstart, if_pos (Nat.le_add_right _ _), Nat.add_sub_cancel_left]
  have hunknown : offset.value? = none := by
    cases hknown : offset.value? with
    | none => rfl
    | some n =>
      have hsame := (Assignment.val_of_value? hknown (ofByte 0)).trans (Assignment.val_of_value? hknown (ofByte 1)).symm
      rw [hdistance _ rfl, hdistance _ rfl] at hsame
      exact absurd hsame (by decide)
  obtain ⟨v, hread, hv⟩ := exists_read_of_unknown farByte.object farByte.bytes
    haddress.wellFormed haddress.width_eq hunknown
  have hfound : f.state.memory.find? farByte.object = some farByte := by
    rw [hmemory]
    rfl
  obtain ⟨s', hs', -, -, hloaded⟩ := hregister.exists_write (.refl _) v
  refine ends_bind_ok rfl ?_
  rw [hfound]
  refine ends_seq (ends_lift (Checked.ends_of_eq hread (ends_updateState (Checked.ends_of_eq hs' ?_))))
  refine ⟨rfl, rfl, v, hloaded.register?_eq, fun a ha ↦ ?_⟩
  have hindex : a.val offset % 2 ^ 32 = 0 := by
    rw [hdistance a ha, Nat.mul_mod_right]
  rw [hv a ha (by rw [hindex, size_farByte]; omega), hindex, getElem?_farByte, Array.getElem?_push_lt (by simp),
    Array.getElem_replicate]
  rfl

theorem not_followed_farByte : ¬Followed .all (.load 8 0) (holding (.only farByte) none) nearOrFar := by
  have hposed := posed_holding (.only farByte) none isAddress_nearOrFar
  have hlist : (holding (.only farByte) none).state.memory.toList = [farByte] := rfl
  have hends : (tryCatch (Exec.access (.load 8 0) nearOrFar) settle).Ends (fun _ ↦ True) (holding (.only farByte) none)
      fun _ f ↦ f.executor.nextStateId = 1 ∧ ∃ v, f.state.register? 0 = some v ∧
        ∀ a : Assignment, a.free → a.val v = 0 := by
    refine ends_tryCatch (P := fun r f ↦ r = .ok () ∧ f.executor.nextStateId = 1 ∧
      ∃ v, f.state.register? 0 = some v ∧ ∀ a : Assignment, a.free → a.val v = 0)
      (ends_access_of_plain hposed rfl ?_) (fun _ _ h ↦ h.2) fun _ _ h ↦ nomatch h.1
    refine ends_accessFrom hposed addressable_farByte (fun x hx offset hoffset _ solver _ ↦ ?_) fun hnone _ _ ↦ ?_
    · obtain rfl : x = farByte := by rwa [hlist, List.mem_singleton] at hx
      refine Ends.mono (ends_perform_farByte (f := (holding (.only farByte) none).withSolver solver) hoffset rfl
        hposed.fits.2) fun r f h ↦ ?_
      obtain ⟨hr, hexecutor, hv⟩ := h
      exact ⟨hr, by rw [hexecutor]; rfl, hv⟩
    · obtain ⟨a, ha, hout⟩ := hnone farByte (by rw [hlist]; exact List.mem_singleton_self _)
      exact (hout (inside_farByte ha.free)).elim
  rintro ⟨_, f, hf, h⟩
  obtain ⟨hnext, v, hv, hzero⟩ := hends.run.of_eq hf
  obtain ⟨b, s, hfollows⟩ := h (ofByte 1) (solves_ofByte 1)
  obtain rfl := hfollows.state_eq hnext
  have hin : (Access.load 8 0).Inside (ofByte 1) nearOrFar farByte := inside_farByte rfl
  obtain ⟨v', hloaded, hval⟩ := ((hfollows.inside farByte (by simp [hlist]) hin).made id).2
  obtain rfl := Option.some.inj (hv.symm.trans hloaded.register?_eq)
  have himage : image (ofByte 1) farByte = farByte.bytes := image_of_concrete size_farByte
  have hdistance : (ofByte 1).val nearOrFar - farByte.object.address = 2 ^ 32 := by
    rw [val_nearOrFar rfl]
    decide
  rw [hzero _ rfl, himage, hdistance, number_farByte] at hval
  exact absurd hval (by decide)

theorem val_somewhere (b : UInt8) : (ofByte b).val somewhere = 4096 + b.toNat := by
  have hbyte : (ofByte b).val inputByte = b.toNat := rfl
  have hlt := b.toNat_lt
  rw [somewhere, Assignment.val_binary rfl, BinOp.fold_add, Assignment.val_pointer (by decide), Assignment.val_zext,
    hbyte]
  exact Nat.mod_eq_of_lt (Nat.lt_of_lt_of_le (Nat.add_lt_add_left hlt _) (by decide))

theorem not_followed_late : ¬Followed .all (.load 8 0) (holding (.only fourBytes) (some 0)) somewhere := by
  have hposed := posed_holding (.only fourBytes) (some 0) isAddress_somewhere
  have hlist : (holding (.only fourBytes) (some 0)).state.memory.toList = [fourBytes] := rfl
  have hinside : ∀ b : UInt8, (Access.load 8 0).Inside (ofByte b) somewhere fourBytes ↔ b.toNat < 4 := by
    intro b
    rw [Access.Inside, val_somewhere]
    change 4096 ≤ _ ∧ _ + 1 ≤ 4096 + 4 ↔ _
    omega
  refine not_followed_of_ended (solves_ofByte 0) (by rw [hlist]; exact List.mem_singleton_self _)
    ((hinside 0).2 (by decide)) id ?_
  refine ends_tryCatch (P := fun r f ↦ r = .ok () ∧ f.executor.nextStateId = 1 ∧ f.state.id ∈ f.executor.removed)
    (ends_access_of_plain hposed rfl (ends_accessFrom hposed addressable_fourBytes ?_ ?_)) (fun _ _ h ↦ h.2)
    fun _ _ h ↦ nomatch h.1
  · intro x hx _ _ hin
    obtain rfl : x = fourBytes := by rwa [hlist, List.mem_singleton] at hx
    exact absurd ((hinside 255).1 (hin _ (solves_ofByte 255))) (by decide)
  · intro _ solver hsame
    refine ends_accessEach_of_late hposed addressable_fourBytes rfl (List.cons_ne_nil _ _) hsame fun i j hij ↦ ?_
    change decide (0 * 1000000 < j - i) = true
    rw [decide_eq_true_eq, Nat.zero_mul]
    exact Nat.sub_pos_of_lt hij

def noBytes : ObjectState where
  object := { id := 2, address := 4096, size := 0, name := "none" }
  bytes := .empty

def overlaid : AddressSpace where
  objects := ⟨.node 2 fourBytes.object.key fourBytes .leaf (.node 1 noBytes.object.key noBytes .leaf .leaf), 2⟩

theorem not_followed_overlaid : ¬Followed .all (.load 8 0) (holding overlaid none) (.pointer 4096) := by
  obtain ⟨f, hrun, hnext, hended⟩ : ∃ f, (tryCatch (Exec.access (.load 8 0) (.pointer 4096)) settle).run.run
      (holding overlaid none) = .ok (.ok (), f) ∧ f.executor.nextStateId = 1 ∧ f.state.id ∈ f.executor.removed :=
    ⟨_, rfl, rfl, List.mem_singleton_self _⟩
  have hlist : (holding overlaid none).state.memory.toList = [fourBytes, noBytes] := rfl
  refine not_followed_of_ended (solves_ofByte 0) (x := fourBytes) (by simp [hlist]) ⟨?_, ?_⟩ id ?_
  · rw [Assignment.val_pointer (by decide)]
    decide
  · rw [Assignment.val_pointer (by decide)]
    decide
  · rw [Ends, hrun]
    exact Checked.ends_pure ⟨hnext, hended⟩

end Exec

end Symex
