import Symex.Proofs.Calls.CopyBack
import Symex.Proofs.Calls.Host
import Symex.Proofs.Feasibility.Work
import Symex.Proofs.Seeding.Arms

namespace Symex

open Checked

/-! ## Writes and the image -/

def HostMemory.put (w : Nat × ByteArray) (n : Nat) : Option UInt8 := if w.1 ≤ n then w.2[n - w.1]? else none

/-- The byte that the host wrote last at an address. -/
def HostMemory.lastWritten : List (Nat × ByteArray) → Nat → Option UInt8
  | [], _ => none
  | w :: l, n => (lastWritten l n).or (put w n)

namespace AddressSpace

open HostMemory

variable {m : AddressSpace} {x : ObjectState} {image image' : HostMemory} {i : Nat}

def Backs (m : AddressSpace) (image : HostMemory) : Prop :=
  ∀ start region, image.region? start = some region →
    ∃ z ∈ m.toList, z.object.address = start ∧ region.size = z.bytes.size

theorem Backs.of_alike (h : m.Backs image) (halike : image.Alike image') : m.Backs image' := by
  intro start region hregion
  obtain ⟨region', hregion', hsize⟩ := Option.map_eq_some_iff.1
    ((halike start).symm.trans (by rw [hregion]; rfl : _ = some region.size))
  obtain ⟨z, hz, hstart, hsize'⟩ := h start region' hregion'
  exact ⟨z, hz, hstart, hsize.symm.trans hsize'⟩

theorem backs_copyOut (m : AddressSpace) : m.Backs (m.copyOut {}) := by
  have hfold (l : List ObjectState) (image : HostMemory) (start : Nat) (region : ByteArray)
      (h : (l.foldl (fun m z ↦ m.map z.object.address z.bytes) image).region? start = some region) :
      image.region? start = some region ∨
        ∃ z ∈ l, z.object.address = start ∧ region.size = z.bytes.size := by
    induction l generalizing image with
    | nil => exact .inl h
    | cons z l ih =>
      obtain h | ⟨y, hy, h⟩ := ih _ h
      · rw [region?_map] at h
        split at h
        · rename_i heq
          obtain rfl := Option.some.inj h
          exact .inr ⟨z, List.mem_cons_self, heq, rfl⟩
        · exact .inl h
      · exact .inr ⟨y, List.mem_cons_of_mem _ hy, h⟩
  intro start region h
  exact (hfold _ _ _ _ h).resolve_left (by simp [region?])

theorem put_eq {w : Nat × ByteArray} {n j : Nat} (h : n = w.1 + j) : put w n = w.2[j]? := by
  rw [put, if_pos (by omega), show n - w.1 = j by omega]

theorem put_eq_none {w : Nat × ByteArray} {n : Nat} (h : n < w.1 ∨ w.1 + w.2.size ≤ n) : put w n = none := by
  rw [put]
  split
  · exact getElem?_neg w.2 _ (by omega)
  · rfl

theorem Backs.byte?_of_write {w : Nat × ByteArray} (h : m.Backs image) (hm : m.Intact)
    (hapart : m.toList.Pairwise (·.object.Apart ·.object)) (hwrite : image.write w.1 w.2 = .ok image')
    (hx : x ∈ m.toList) (hi : i < x.object.size) :
    image'.byte? x.object.address i = (put w (x.object.address + i)).or (image.byte? x.object.address i) := by
  obtain ⟨start, offset, hw, hwrote⟩ := exists_wrote hwrite
  obtain ⟨region, hregion, hfits⟩ := hwrote.fits
  obtain ⟨z, hz, rfl, hsize⟩ := h start region hregion
  rw [hsize, (hm.contents z hz).size_eq] at hfits
  rw [hwrote.byte?_eq]
  by_cases hsame : x.object.address = z.object.address
  · split
    · rename_i hin
      have hlt : i - offset < w.2.size := by omega
      rw [put_eq (show x.object.address + i = w.1 + (i - offset) by omega), getElem?_pos w.2 _ hlt, Option.some_or]
    · rename_i hout
      rw [put_eq_none (by omega), Option.none_or]
  · have hsymm : Std.Symm fun x z : ObjectState ↦ x.object.Apart z.object := ⟨fun _ _ ↦ Or.symm⟩
    have hxz : x.object.Apart z.object := hapart.forall hx hz fun heq ↦ hsame (by rw [heq])
    simp only [MemoryObject.Apart, MemoryObject.stop] at hxz
    rw [if_neg fun h ↦ hsame h.1, put_eq_none (by omega), Option.none_or]

theorem byte?_of_writes {writes : List (Nat × ByteArray)} (hm : m.Intact)
    (hapart : m.toList.Pairwise (·.object.Apart ·.object)) (hwrites' : (m.copyOut {}).writes writes = .ok image)
    (hx : x ∈ m.toList) (hi : i < x.object.size) :
    image.byte? x.object.address i = (lastWritten writes (x.object.address + i)).or x.bytes[i]? := by
  have hgeneral (image₀ : HostMemory) (h : m.Backs image₀) (hwrites : image₀.writes writes = .ok image) :
      image.byte? x.object.address i =
        (lastWritten writes (x.object.address + i)).or (image₀.byte? x.object.address i) := by
    clear hwrites'
    induction writes generalizing image₀ with
    | nil =>
      cases hwrites
      exact Option.none_or.symm
    | cons w l ih =>
      rw [HostMemory.writes, List.foldlM_cons] at hwrites
      cases hwrite : image₀.write w.1 w.2 with
      | error _ =>
        rw [hwrite] at hwrites
        cases hwrites
      | ok next =>
        rw [hwrite] at hwrites
        obtain ⟨_, _, -, hwrote⟩ := exists_wrote hwrite
        rw [ih next (h.of_alike hwrote.alike) hwrites, h.byte?_of_write hm hapart hwrite hx hi, lastWritten,
          Option.or_assoc]
  rw [hgeneral _ (backs_copyOut m) hwrites', byte?, copyOut,
    region?_foldl_map (pairwise_address_ne hapart) {} hx, Option.bind_some]

end AddressSpace

/-! ## Work that leaves memory as it is -/

namespace Exec

variable {σ α β : Type} {x : Exec σ α}

/-- The work leaves memory and the functions of the host as they are. -/
def Remembers (x : Exec σ α) : Prop := ∀ g : Focus σ, x.Ends (fun _ ↦ True) g fun _ h ↦
  h.state.memory = g.state.memory ∧ h.executor.host = g.executor.host

theorem remembers_pure (a : α) : (pure a : Exec σ α).Remembers := fun _ ↦ ends_pure ⟨rfl, rfl⟩

theorem remembers_fail (e : ExecError) : (fail e : Exec σ α).Remembers := fun _ ↦ ends_fail ⟨rfl, rfl⟩

theorem remembers_bind {k : α → Exec σ β} (hx : x.Remembers) (hk : ∀ a, (k a).Remembers) :
    (x >>= k).Remembers := fun g ↦
  ends_bind (hx g) (fun a f hf ↦ (hk a f).mono fun _ _ h ↦ ⟨h.1.trans hf.1, h.2.trans hf.2⟩) fun _ _ hf ↦ hf

theorem remembers_lift (c : Checked α) : (liftM c : Exec σ α).Remembers := fun _ ↦
  ends_lift (ends_true_iff.2 fun _ _ ↦ ⟨rfl, rfl⟩)

theorem remembers_executor : (executor : Exec σ (Executor σ)).Remembers := fun _ ↦ ends_executor ⟨rfl, rfl⟩

theorem remembers_state : (state : Exec σ State).Remembers := fun _ ↦ ends_state ⟨rfl, rfl⟩

theorem remembers_ask (question : ConstraintSet → Ask σ α) : (ask question).Remembers := fun _ ↦
  ends_ask_any (ends_true_iff.2 fun _ _ ↦ ⟨rfl, rfl⟩)

theorem remembers_query (question : ConstraintSet → Ask σ α) : (query question).Remembers := by
  refine remembers_bind (remembers_ask question) fun r ↦ ?_
  cases r with
  | ok a => exact remembers_pure a
  | error _ => exact remembers_fail _

theorem remembers_seeds? : (seeds? : Exec σ _).Remembers := fun _ ↦ ends_bind_ok rfl (Exec.ends_pure ⟨rfl, rfl⟩)

theorem remembers_toUnique (e : Expr) : (toUnique e : Exec σ Expr).Remembers := by
  unfold toUnique
  split
  · exact remembers_pure e
  · refine remembers_bind (remembers_ask _) fun r ↦ ?_
    split
    · exact remembers_pure e
    · refine remembers_bind (remembers_lift _) fun same ↦ remembers_bind (remembers_ask _) fun r ↦ ?_
      split
      · exact remembers_pure _
      · exact remembers_pure _

theorem remembers_patchSeeds (condition : Expr) : (patchSeeds condition : Exec σ Unit).Remembers := by
  refine remembers_bind remembers_seeds? fun seeds ↦ ?_
  split
  · dsimp only
    split
    · exact remembers_pure _
    · refine remembers_bind remembers_state fun s ↦ remembers_bind (remembers_query _) fun values ↦ ?_
      split
      · exact fun _ ↦ ends_modifyExecutor ⟨rfl, rfl⟩
      · exact remembers_pure _
  · exact remembers_pure _

theorem remembers_addConstraint (condition : Expr) : (addConstraint condition : Exec σ Unit).Remembers := by
  refine remembers_bind (fun g ↦ ends_updateState (ends_true_iff.2 fun s hs ↦ ⟨?_, rfl⟩)) fun _ ↦
    remembers_patchSeeds condition
  obtain ⟨c, -, hs⟩ := bind_eq_ok.1 hs
  obtain rfl := pure_eq_ok.1 hs
  rfl

theorem remembers_toConstant (e : Expr) : (toConstant e : Exec σ Expr).Remembers := by
  unfold toConstant
  split
  · exact remembers_pure e
  · exact remembers_bind (remembers_query _) fun value ↦ remembers_bind (remembers_lift _) fun same ↦
      remembers_bind (remembers_addConstraint same) fun _ ↦ remembers_pure value

theorem remembers_hostArgument (name : String) (argument : Expr) :
    (hostArgument name argument : Exec σ Nat).Remembers := by
  refine remembers_bind (remembers_toUnique argument) fun e ↦ ?_
  split
  · exact remembers_pure _
  · refine remembers_bind remembers_executor fun executor ↦ ?_
    split
    · exact remembers_bind (remembers_toConstant e) fun _ ↦ remembers_pure _
    · exact remembers_fail _

theorem remembers_mapM {γ : Type} {w : γ → Exec σ β} (hw : ∀ x, (w x).Remembers) (l : List γ) :
    (l.mapM w).Remembers := by
  induction l with
  | nil => exact remembers_pure []
  | cons x l ih =>
    rw [List.mapM_cons]
    exact remembers_bind (hw x) fun _ ↦ remembers_bind ih fun _ ↦ remembers_pure _

/-! ## Calls -/

/-- From `g` to `h` a function of the host returned, and what it changed in the image came back. -/
def TookBack (g h : Focus σ) (name : String) : Prop :=
  ∃ values result image m,
    (g.executor.host.call ⟨name, values, g.state.memory.copyOut {}⟩).1 = (.ok result, image) ∧
    g.state.memory.copyIn image = .ok (true, m) ∧ h.state.memory = m

theorem ends_callHost_took (g : Focus σ) (name : String) (width : Option Nat) (arguments : List Expr)
    (destination : Option Register) : (callHost name width arguments destination).Ends (fun _ ↦ True) g fun r h ↦
      r = .ok () → TookBack g h name := by
  refine ends_bind_ok rfl ?_
  dsimp only
  split
  · refine ends_bind (remembers_mapM (remembers_hostArgument name) arguments g) (fun values f hf ↦ ?_) fun _ _ _ ↦ nofun
    refine ends_bind_ok rfl (ends_bind_ok rfl (ends_seq (ends_modifyExecutor ?_)))
    cases hcall : (g.executor.host.call ⟨name, values, g.state.memory.copyOut {}⟩).1 with
    | mk result image =>
      simp only [hf.1, hf.2, hcall]
      cases result with
      | error _ => exact ends_fail nofun
      | ok result =>
        refine ends_bind_ok rfl (ends_seq (ends_lift (ends_true_iff.2 ?_)))
        rintro ⟨done, m⟩ hcopied
        rw [hf.1] at hcopied
        cases done with
        | false => exact ends_seq (ends_fail nofun)
        | true =>
          have htook (s : State) (hs : s.memory = m) : TookBack g { f with state := s } name :=
            ⟨values, result, image, m, hcall, hcopied, hs⟩
          refine ends_seq (ends_updateState (Checked.ends_pure ?_))
          dsimp only
          split
          · exact Exec.ends_pure fun _ ↦ htook _ rfl
          · exact ends_fail nofun
          · refine ends_seq (ends_lift (ends_true_iff.2 fun v _ ↦ ?_))
            exact ends_updateState (ends_true_iff.2 fun s hs _ ↦ htook s (State.memory_of_write hs))
  · exact ends_seq (ends_fail nofun)

/-- After a call that succeeds a byte that the host wrote is read as the constant that it wrote last, unless the
byte was not concrete and just that constant was stored under it. Then the byte is read as before the call, as are
the bytes that the host did not write. -/
theorem reads_of_callHost {g h : Focus σ} {name : String} {width : Option Nat} {arguments : List Expr}
    {destination : Option Register} (hm : g.state.memory.Intact)
    (hapart : g.state.memory.toList.Pairwise (·.object.Apart ·.object))
    (hrun : (callHost name width arguments destination).run.run g = .ok (.ok (), h)) :
    ∃ values result image,
      (g.executor.host.call ⟨name, values, g.state.memory.copyOut {}⟩).1 = (.ok result, image) ∧
      ∀ writes, (g.state.memory.copyOut {}).writes writes = .ok image →
        ∀ x ∈ g.state.memory.toList, ∃ y, h.state.memory.find? x.object = some y ∧ ∀ i < x.object.size,
          (∀ b, HostMemory.lastWritten writes (x.object.address + i) = some b →
            x.form i = .ok .concrete ∨ x.bytes[i]? ≠ some b → y.readByte i = .ok (.word b.toNat 8)) ∧
          (∀ b, HostMemory.lastWritten writes (x.object.address + i) = some b →
            x.bytes[i]? = some b → y.readByte i = x.readByte i) ∧
          (HostMemory.lastWritten writes (x.object.address + i) = none → y.readByte i = x.readByte i) := by
  obtain ⟨values, result, image, m, hcall, hcopied, rfl⟩ :=
    (ends_callHost_took g name width arguments destination).run.of_eq hrun rfl
  refine ⟨values, result, image, hcall, fun writes hwrites x hx ↦ ?_⟩
  have hcopiedIn := hm.copiedIn (AddressSpace.covered_of_writes hapart hwrites) hcopied
  obtain ⟨y, hy, -, hbytes⟩ := hcopiedIn.contents x hx
  refine ⟨y, hy, fun i hi ↦ ?_⟩
  obtain ⟨b, hb, hread⟩ := hbytes i hi
  rw [AddressSpace.byte?_of_writes hm hapart hwrites hx hi] at hb
  refine ⟨fun b' hb' hseen ↦ ?_, fun b' hb' hstored ↦ ?_, fun hnone ↦ ?_⟩
  · rw [hb', Option.some_or] at hb
    cases hb
    rw [hread]
    split
    · rename_i hstored
      obtain hform | hne := hseen
      · rw [ObjectState.readByte_eq, hform, ok_bind]
        dsimp only
        rw [hstored]
        rfl
      · exact (hne hstored).elim
    · rfl
  · rw [hb', Option.some_or] at hb
    cases hb
    rw [hread, if_pos hstored]
  · rw [hnone, Option.none_or] at hb
    rw [hread, if_pos hb]

theorem foldl_call (d : Dispatcher) (calls : List HostCall) :
    calls.foldl (fun d c ↦ (d.call c).2) d = { d with calls := calls.reverse ++ d.calls } := by
  induction calls generalizing d with
  | nil => rfl
  | cons c calls ih =>
    rw [List.foldl_cons, ih]
    simp [Dispatcher.call]

/-- Functions that share a state answer each call in the state that the calls before led to. -/
theorem fst_call_ofMachine {τ : Type} (start : τ)
    (step : τ → HostCall → (Except HostError (Option Nat) × HostMemory) × τ) (calls : List HostCall) (c : HostCall) :
    ((calls.foldl (fun d c ↦ (d.call c).2) (Dispatcher.ofMachine start step)).call c).1 =
      (step (calls.foldl (fun state c ↦ (step state c).2) start) c).1 := by
  rw [foldl_call]
  simp [Dispatcher.call, Dispatcher.ofMachine]

theorem fst_call_ofHost (h : Host) (name : String) (values : List Nat) (m : HostMemory) :
    (Dispatcher.call h ⟨name, values, m⟩).1 = h.call name values m := rfl

/-- A function of the host that writes to two bytes, to the second of them what is stored there. -/
def rewriting : HostFunction := fun _ memory ↦
  match memory.writes [(4096, ⟨#[9]⟩), (4097, ⟨#[6]⟩)] with
  | .ok memory => (.ok none, memory)
  | .error e => (.error e, memory)

/-- A machine with that function and with a byte that is an input. -/
def rewritten : Focus Unit where
  executor := {
    program := ⟨#[], #[], #[], 0⟩
    solver := { backend := .sampling Executor.samples, state := () }
    allocator := { maxSize := 0 }
    host := Host.mk (.ofList [("f", rewriting)])
    states := {}
    tree := .ofState 0
    rng := .ofSeed 1 }
  state := { State.start 0 0 0 with memory := AddressSpace.guardedBytes }

/-- The first byte is a constant after the call, and the second is still the input. -/
theorem reads_of_callHost_rewritten : ∃ h y, (callHost "f" none [] none).run.run rewritten = .ok (.ok (), h) ∧
    h.state.memory.find? AddressSpace.maskedBytes.object = some y ∧ y.readByte 0 = .ok (.word 9 8) ∧
    y.readByte 1 = .ok (.read (.base (.symbolic "x" 1)) (.const 0 32)) := by
  obtain ⟨⟨⟩, h, hrun, -⟩ : ∃ (u : Unit) (h : Focus Unit),
      (callHost "f" none [] none).run.run rewritten = .ok (.ok u, h) ∧ (true : Bool) :=
    exists_run_of_decide (by decide +kernel)
  obtain ⟨values, result, image, hcall, hreads⟩ :=
    reads_of_callHost AddressSpace.intact_guardedBytes AddressSpace.apart_guardedBytes hrun
  obtain ⟨image', hwrites, hcall'⟩ : ∃ image', (AddressSpace.guardedBytes.copyOut {}).writes
        [(4096, ⟨#[9]⟩), (4097, ⟨#[6]⟩)] = .ok image' ∧
      rewriting values (AddressSpace.guardedBytes.copyOut {}) = (.ok none, image') := ⟨_, rfl, rfl⟩
  have hhost : rewritten.executor.host = Dispatcher.ofHost ⟨.ofList [("f", rewriting)]⟩ := rfl
  have hanswer (m : HostMemory) : (rewritten.executor.host.call ⟨"f", values, m⟩).1 = rewriting values m := by
    rw [hhost, fst_call_ofHost]
    rfl
  rw [show rewritten.state.memory = AddressSpace.guardedBytes from rfl, hanswer, hcall'] at hcall
  cases hcall
  obtain ⟨y, hy, hbytes⟩ := hreads _ hwrites AddressSpace.maskedBytes List.mem_cons_self
  refine ⟨h, y, hrun, hy, ?_, ?_⟩
  · exact (hbytes 0 (by decide)).1 9 (by decide) (.inl rfl)
  · exact ((hbytes 1 (by decide)).2.1 6 (by decide) (by decide)).trans rfl

end Exec

end Symex
