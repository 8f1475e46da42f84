import Symex.Proofs.Integrity.Lookups
import Symex.Proofs.Threads.Waits

namespace Symex

variable {α β : Type}

namespace Checked

/-- No structural rule is broken, and `P` holds of the result. -/
abbrev Fair (x : Checked α) (P : α → Prop) : Prop := Ends (· ≠ .misuse) x P

variable {P : α → Prop} {Q : β → Prop} {x : Checked α}

theorem Found.fair (hx : Found x P) : Fair x P := hx.weaken fun _ h ↦ h.2

theorem fair_bind {f : α → Checked β} (hx : Fair x fun _ ↦ True) (hf : ∀ a, Fair (f a) Q) : Fair (x >>= f) Q :=
  ends_bind hx fun a _ ↦ hf a

theorem fair_ofOption (o : Option α) : Fair (ofOption o) fun a ↦ o = some a :=
  ends_ofOption nofun fun _ h ↦ h

theorem fair_demand {p : Prop} [Decidable p] {fault : Fault} (h : fault ≠ .misuse) :
    Fair (demand p fault) fun _ ↦ True :=
  ends_demand (fun _ ↦ h) fun _ ↦ trivial

theorem fair_foldlM {f : β → α → Checked β} {l : List α} {b : β} (hf : ∀ b a, Fair (f b a) fun _ ↦ True) :
    Fair (l.foldlM f b) fun _ ↦ True :=
  ends_foldlM trivial fun a _ b _ ↦ hf b a

theorem fair_mapM {f : α → Checked β} {l : List α} (hf : ∀ a, Fair (f a) fun _ ↦ True) :
    Fair (l.mapM f) fun _ ↦ True :=
  (ends_mapM fun a _ ↦ hf a).mono fun _ _ ↦ trivial

end Checked

open Checked

/-! ## Memory -/

namespace AddressSpace

variable (m : AddressSpace)

theorem fair_bind (x : ObjectState) : Fair (m.bind x) fun _ ↦ True :=
  Checked.fair_bind (fair_demand nofun) fun _ ↦ ends_pure trivial

theorem fair_unbind (o : MemoryObject) : Fair (m.unbind o) fun _ ↦ True :=
  Checked.fair_bind (fair_demand nofun) fun _ ↦ ends_pure trivial

theorem fair_modify (o : MemoryObject) {f : ObjectState → Checked ObjectState}
    (hf : ∀ x, Fair (f x) fun _ ↦ True) : Fair (m.modify o f) fun _ ↦ True := by
  unfold modify
  split
  · exact ends_throw nofun
  · exact Checked.fair_bind (hf _) fun _ ↦ ends_pure trivial

theorem fair_copyIn (image : HostMemory) : Fair (m.copyIn image) fun _ ↦ True := by
  unfold copyIn
  split
  · exact ends_pure trivial
  · refine Checked.fair_bind (fair_foldlM fun m q ↦ m.fair_modify q.1 fun x ↦ fair_foldlM fun y b ↦ ?_)
      fun _ ↦ ends_pure trivial
    exact (y.found_writeByte b.1 b.2).fair.mono fun _ _ ↦ trivial

end AddressSpace

/-! ## Programs and frames -/

theorem Program.fair_function (p : Program) (f : FunctionId) : Fair (p.function f) fun _ ↦ True := by
  unfold function
  split
  · exact ends_pure trivial
  · exact ends_throw nofun

theorem Program.fair_instruction (p : Program) (l : Location) : Fair (p.instruction l) fun _ ↦ True := by
  unfold instruction
  split
  · exact ends_pure trivial
  · exact ends_throw nofun

theorem Frame.fair_write (f : Frame) (r : Register) (value : Expr) : Fair (f.write r value) fun _ ↦ True :=
  fair_bind (fair_demand nofun) fun _ ↦ ends_pure trivial

theorem Thread.fair_frame (t : Thread) : Fair t.frame fun _ ↦ True :=
  (fair_ofOption _).mono fun _ _ ↦ trivial

theorem Thread.fair_modifyFrame (t : Thread) {f : Frame → Checked Frame} (hf : ∀ g, Fair (f g) fun _ ↦ True) :
    Fair (t.modifyFrame f) fun _ ↦ True := by
  unfold modifyFrame
  split
  · exact ends_throw nofun
  · exact fair_bind (hf _) fun _ ↦ ends_pure trivial

namespace State

/-! ## What stays of a state -/

/-- Threads have different ids, all of which were given out. -/
structure Apart (s : State) : Prop where
  nodup : s.threadIds.Nodup
  id_lt : ∀ id ∈ s.threadIds, id < s.nextThreadId

/-- The state with its name and its place in the process tree. -/
structure Beside (s s' : State) : Prop where
  id_eq : s'.id = s.id
  node_eq : s'.node = s.node
  apart : s.Apart → s'.Apart

variable {s s' s'' : State}

theorem Beside.refl (s : State) : s.Beside s := ⟨rfl, rfl, fun h ↦ h⟩

theorem Beside.trans (h : s.Beside s') (h' : s'.Beside s'') : s.Beside s'' :=
  ⟨h'.id_eq.trans h.id_eq, h'.node_eq.trans h.node_eq, h'.apart ∘ h.apart⟩

theorem beside_of_sublist (hid : s'.id = s.id) (hnode : s'.node = s.node)
    (hthreads : s'.threadIds.Sublist s.threadIds) (hnext : s'.nextThreadId = s.nextThreadId) : s.Beside s' :=
  ⟨hid, hnode, fun h ↦ ⟨h.nodup.sublist hthreads, fun id hmem ↦ hnext ▸ h.id_lt id (hthreads.mem hmem)⟩⟩

theorem beside_of_eq (hid : s'.id = s.id) (hnode : s'.node = s.node) (hthreads : s'.threadIds = s.threadIds)
    (hnext : s'.nextThreadId = s.nextThreadId) : s.Beside s' :=
  beside_of_sublist hid hnode (hthreads ▸ .refl _) hnext

theorem threadIds_setThread (s : State) (t : Thread) : (s.setThread t).threadIds = s.threadIds := by
  rw [threadIds, setThread, List.map_map]
  refine List.map_congr_left fun u _ ↦ ?_
  rw [Function.comp_apply]
  split
  · exact Eq.symm ‹_›
  · rfl

theorem beside_setThread (s : State) (t : Thread) : s.Beside (s.setThread t) :=
  beside_of_eq rfl rfl (s.threadIds_setThread t) rfl

theorem beside_createThread (s : State) (function : FunctionId) (registers : Nat) :
    s.Beside (s.createThread function registers).2 := by
  refine ⟨rfl, rfl, fun h ↦ ?_⟩
  have hids : (s.createThread function registers).2.threadIds = s.threadIds ++ [s.nextThreadId] := by
    simp [threadIds, createThread, Thread.start]
  constructor
  · rw [hids, List.nodup_append]
    refine ⟨h.nodup, List.nodup_singleton _, fun id hid id' hid' ↦ ?_⟩
    exact List.mem_singleton.1 hid' ▸ Nat.ne_of_lt (h.id_lt id hid)
  · intro id hid
    rw [hids, List.mem_append, List.mem_singleton] at hid
    rcases hid with hid | rfl
    · exact Nat.lt_succ_of_lt (h.id_lt id hid)
    · exact Nat.lt_succ_self _

theorem beside_notifyOne (s : State) (list : WaitListId) (id : ThreadId) : s.Beside (s.notifyOne list id) := by
  refine beside_of_eq rfl rfl ?_ rfl
  rw [threadIds, notifyOne, List.map_map]
  refine List.map_congr_left fun t _ ↦ ?_
  rw [Function.comp_apply]
  split <;> rfl

theorem beside_notifyAll (s : State) (list : WaitListId) : s.Beside (s.notifyAll list) := by
  refine beside_of_eq rfl rfl ?_ rfl
  rw [threadIds, notifyAll, List.map_map]
  refine List.map_congr_left fun t _ ↦ ?_
  rw [Function.comp_apply]
  split <;> rfl

/-! ## Changes of a state -/

variable (s)

theorem fair_thread : Fair s.thread fun t ↦ s.thread? s.current = some t := fair_ofOption _

theorem fair_frame : Fair s.frame fun _ ↦ True :=
  ends_bind s.fair_thread fun t _ ↦ t.fair_frame

theorem fair_modifyThread {f : Thread → Checked Thread} (hf : ∀ t, Fair (f t) fun _ ↦ True) :
    Fair (s.modifyThread f) s.Beside :=
  ends_bind s.fair_thread fun t _ ↦ ends_bind (hf t) fun _ _ ↦ ends_pure (s.beside_setThread _)

theorem fair_modifyFrame {f : Frame → Checked Frame} (hf : ∀ g, Fair (f g) fun _ ↦ True) :
    Fair (s.modifyFrame f) s.Beside :=
  s.fair_modifyThread fun t ↦ t.fair_modifyFrame hf

theorem fair_write (r : Register) (value : Expr) : Fair (s.write r value) s.Beside :=
  s.fair_modifyFrame fun f ↦ f.fair_write r value

theorem fair_writes (l : List (Expr × Nat)) :
    Fair (l.foldlM (fun s (argument, i) ↦ s.write i argument) s) s.Beside :=
  ends_foldlM (.refl s) fun q _ s' h ↦ (s'.fair_write q.2 q.1).mono fun _ h' ↦ h.trans h'

theorem fair_addConstraint (c : Expr) : Fair (s.addConstraint c) s.Beside :=
  ends_bind (s.constraints.plain_add c).fair fun _ _ ↦ ends_pure ⟨rfl, rfl, fun h ↦ ⟨h.nodup, h.id_lt⟩⟩

theorem fair_memory {x : Checked AddressSpace} (hx : Fair x fun _ ↦ True) :
    Fair (do return { s with memory := ← x }) s.Beside :=
  ends_bind hx fun _ _ ↦ ends_pure ⟨rfl, rfl, fun h ↦ ⟨h.nodup, h.id_lt⟩⟩

theorem fair_unbindAll (objects : List MemoryObject) : Fair (s.unbindAll objects) s.Beside :=
  s.fair_memory (fair_foldlM fun m o ↦ m.fair_unbind o)

theorem fair_pushFrame (caller : Option CallSite) (function : FunctionId) (registers : Nat) :
    Fair (s.pushFrame caller function registers) s.Beside :=
  s.fair_modifyThread fun _ ↦ ends_pure trivial

theorem fair_bindLocal (contents : ObjectState) : Fair (s.bindLocal contents) s.Beside := by
  refine ends_bind (s.memory.fair_bind contents) fun m _ ↦ ?_
  refine (fair_modifyFrame { s with memory := m } fun _ ↦ ends_pure trivial).mono fun s' h ↦ ?_
  exact ⟨h.id_eq, h.node_eq, fun hs ↦ h.apart ⟨hs.nodup, hs.id_lt⟩⟩

theorem fair_popFrame : Fair s.popFrame fun q ↦ s.Beside q.2 := by
  refine ends_bind s.fair_thread fun t _ ↦ ?_
  split
  · exact ends_pure (.refl s)
  · refine ends_bind (fair_unbindAll _ _) fun s' h ↦ ends_pure ?_
    exact (s.beside_setThread _).trans h

theorem fair_terminateThread (id : ThreadId) : Fair (s.terminateThread id) s.Beside := by
  unfold terminateThread
  split
  · exact ends_pure (.refl s)
  · refine (fair_unbindAll _ _).mono fun s' h ↦ .trans ?_ h
    exact beside_of_sublist rfl rfl (List.filter_sublist.map _) rfl

theorem fair_sleep (list : WaitListId) : Fair (s.sleep list) s.Beside := by
  refine ends_bind (s.fair_modifyThread fun _ ↦ ends_pure trivial) fun s' h ↦ ends_pure ?_
  exact ⟨h.id_eq, h.node_eq, fun hs ↦ ⟨(h.apart hs).nodup, (h.apart hs).id_lt⟩⟩

def Runs (s : State) (id : ThreadId) : Prop := ∀ t, s.thread? id = some t → t.enabled = true

theorem fair_scheduleNext {id : ThreadId} (h : s.Runs id) : Fair (s.scheduleNext id) s.Beside := by
  refine ends_bind (fair_ofOption _) fun t ht ↦ ?_
  refine ends_bind (P := fun _ ↦ True) (ends_demand (fun hne ↦ absurd (h t ht) hne) fun _ ↦ trivial) fun _ _ ↦ ?_
  exact ends_pure ⟨rfl, rfl, fun h ↦ ⟨h.nodup, h.id_lt⟩⟩

variable {s}

theorem Apart.runs_of_mem {id : ThreadId} (h : s.Apart) (hid : id ∈ s.enabledThreads) : s.Runs id := by
  intro t ht
  obtain ⟨u, hu, rfl⟩ := List.mem_map.1 hid
  obtain ⟨hu, henabled⟩ := List.mem_filter.1 hu
  have heq : t = u := List.inj_on_of_nodup_map h.nodup (List.mem_of_find?_eq_some ht) hu
    (by simpa using List.find?_some ht)
  rw [heq, henabled]

theorem Apart.runs_of_nextThread {id after : ThreadId} (h : s.Apart) (hid : s.nextThread after = some id) :
    s.Runs id := by
  refine h.runs_of_mem ?_
  rw [nextThread, List.partition_eq_filter_filter] at hid
  have hmem := List.mem_of_mem_head? hid
  rw [List.mem_append, List.mem_filter, List.mem_filter] at hmem
  exact hmem.elim (·.1) (·.1)

theorem SameWaits.trans (h : s.SameWaits s') (h' : s'.SameWaits s'') : s.SameWaits s'' :=
  ⟨h'.marks.trans h.marks, h'.nextThreadId_eq.trans h.nextThreadId_eq, h'.waitLists_eq.trans h.waitLists_eq⟩

theorem SameWaits.runs {id : ThreadId} (h : s.SameWaits s') (hs : s.Runs id) : s'.Runs id := by
  intro t ht
  have hmark : ∀ u : State, (u.thread? id).map Thread.mark = (u.threads.map Thread.mark).find? (·.1 == id) := by
    intro u
    rw [List.find?_map]
    rfl
  have heq : (s'.thread? id).map Thread.mark = (s.thread? id).map Thread.mark := by
    rw [hmark, hmark, h.marks]
  rw [ht, Option.map_some] at heq
  obtain ⟨u, hu, huv⟩ := Option.map_eq_some_iff.1 heq.symm
  have henabled : u.enabled = t.enabled := congrArg (·.2.1) huv
  rw [← henabled, hs u hu]

variable (s)

/-! ## Reports and merges -/

theorem fair_stackTrace (p : Program) : Fair (s.stackTrace p) fun _ ↦ True := by
  have htrace : ∀ (stack : List Frame) (l : Location), Fair (traceFrom p l stack) fun _ ↦ True := by
    intro stack
    induction stack with
    | nil => exact fun _ ↦ ends_pure trivial
    | cons f rest ih =>
      exact fun l ↦ fair_bind (p.fair_function _) fun _ ↦ fair_bind (ih _) fun _ ↦ ends_pure trivial
  unfold stackTrace
  split
  · exact ends_pure trivial
  · exact htrace _ _

theorem fair_mergeFrame (inFirst : Expr) (f g : Frame) : Fair (mergeFrame inFirst f g) fun _ ↦ True := by
  have hlocal : ∀ a b, Fair (mergeLocal inFirst a b) fun _ ↦ True := by
    intro a b
    unfold mergeLocal
    split
    · split
      · exact ends_pure trivial
      · split
        · exact fair_bind (Expr.plain_mkSelect _ _ _).fair fun _ ↦ ends_pure trivial
        · exact ends_pure trivial
    · exact ends_pure trivial
  exact fair_bind ((ends_mapM_array fun q _ ↦ hlocal q.1 q.2).mono fun _ _ ↦ trivial) fun _ ↦ ends_pure trivial

theorem fair_mergeThread (inFirst : Expr) (t u : Thread) :
    Fair (mergeThread inFirst t u) fun r ↦ r.id = t.id :=
  ends_bind (fair_mapM fun q ↦ fair_mergeFrame inFirst q.1 q.2) fun _ _ ↦ ends_pure rfl

theorem fair_mergeContents (inFirst : Expr) (m : AddressSpace) (a b : ObjectState) :
    Fair (mergeContents inFirst m a b) fun _ ↦ True := by
  refine fair_bind (plain_differingBytes a b).fair fun differing ↦ ?_
  split
  · exact ends_pure trivial
  · refine m.fair_modify _ fun x ↦ fair_foldlM fun y q ↦ fair_bind (Expr.plain_mkSelect _ _ _).fair fun e ↦ ?_
    exact (y.found_write8 q.1 e).fair.mono fun _ _ ↦ trivial

theorem fair_mergeThreads (inFirst : Expr) (l l' : List Thread) :
    Fair ((l.zip l').mapM fun (a, b) ↦ mergeThread inFirst a b) fun r ↦
      (r.map (·.id)).Sublist (l.map (·.id)) := by
  induction l generalizing l' with
  | nil => exact ends_pure (.refl _)
  | cons t l ih =>
    cases l' with
    | nil => exact ends_pure (List.nil_sublist _)
    | cons u l' =>
      rw [List.zip_cons_cons, List.mapM_cons]
      refine ends_bind (fair_mergeThread inFirst t u) fun v hv ↦ ends_bind (ih l') fun r hr ↦ ends_pure ?_
      rw [List.map_cons, List.map_cons, hv]
      exact hr.cons_cons _

theorem fair_merge (t : State) : Fair (s.merge t) fun r ↦ ∀ u, r = some u → s.Beside u := by
  unfold merge
  split
  · dsimp only
    refine ends_bind (Expr.plain_mkAll _).fair fun inFirst _ ↦ ends_bind (Expr.plain_mkAll _).fair fun _ _ ↦ ?_
    refine ends_bind (plain_foldlM fun c e ↦ c.plain_add e).fair fun common _ ↦ ?_
    refine ends_bind (Expr.plain_mkBinary .or _ _).fair fun either _ ↦
      ends_bind (common.plain_add _).fair fun constraints _ ↦ ?_
    refine ends_bind (fair_mergeThreads inFirst _ _) fun threads hthreads ↦ ?_
    refine ends_bind (fair_foldlM fun m q ↦ fair_mergeContents inFirst m q.1 q.2) fun memory _ ↦ ends_pure ?_
    rintro u ⟨⟩
    exact beside_of_sublist rfl rfl hthreads rfl
  · exact ends_pure nofun

end State

end Symex
