import Symex.Proofs.Integrity.Shapes

namespace Symex

open Checked AddressSpace

namespace Shape

/-- The objects that are bound, and where they are found. -/
structure Kept (p : Program) (bound : Nat) (sh : Shape) : Prop where
  owned : Owned p bound sh.held sh.objects sh.pool
  ascending : Ascending sh.objects

structure InOrder (p : Program) (bound : Nat) (sh : Shape) : Prop where
  controlled : sh.Controlled p
  kept : sh.Kept p bound

def Runs (sh : Shape) (t : ThreadShape) : Prop := t ∈ sh.threads ∧ t.id = sh.current

/-- The innermost frame of the current thread has the register. -/
def HasRegister (sh : Shape) (r : Register) : Prop :=
  ∃ t, sh.Runs t ∧ ∃ top rest, t.stack = top :: rest ∧ r < top.registers

variable {p : Program} {n n' : Nat} {sh : Shape} {t t' : ThreadShape}

theorem Kept.mono (h : sh.Kept p n) (hn : n ≤ n') : sh.Kept p n' := ⟨h.owned.mono hn, h.ascending⟩

theorem InOrder.mono (h : sh.InOrder p n) (hn : n ≤ n') : sh.InOrder p n' := ⟨h.controlled, h.kept.mono hn⟩

theorem InOrder.traceable (h : sh.InOrder p n) : sh.Traceable p := h.controlled.loose.traceable

theorem Kept.setThread (h : sh.Kept p n) (hnodup : (sh.threads.map (·.id)).Nodup) (ht : t ∈ sh.threads)
    (hid : t'.id = t.id) (hheld : t'.held.Perm t.held) : (sh.setThread t').Kept p n := by
  obtain ⟨rest, hbefore, hafter, -⟩ := exists_held hnodup ht
  refine ⟨h.owned.perm ?_ .rfl, h.ascending⟩
  exact (hafter t' hid).trans ((hheld.append_right rest).trans hbefore.symm)

theorem HasRegister.setThread {r : Register} (h : sh.HasRegister r)
    (hnodup : (sh.threads.map (·.id)).Nodup) (ht : sh.Runs t) (hid : t'.id = t.id)
    (htop : ∀ top rest, t.stack = top :: rest → ∃ top', t'.stack = top' :: rest ∧
      top'.registers = top.registers) : (sh.setThread t').HasRegister r := by
  obtain ⟨u, hu, top, rest, hstack, hlt⟩ := h
  obtain rfl := eq_of_id_eq hnodup hu.1 ht.1 (hu.2.trans ht.2.symm)
  obtain ⟨top', hstack', hregisters⟩ := htop top rest hstack
  exact ⟨t', ⟨mem_setThread_self hu.1 hid, hid.trans hu.2⟩, top', rest, hstack', hregisters ▸ hlt⟩

end Shape

open Shape

/-! ## Threads -/

namespace Thread

theorem found_frame {t : Thread} {top : FrameShape} {rest : List FrameShape}
    (h : t.shape.stack = top :: rest) : Found t.frame fun f ↦ f.shape = top := by
  obtain ⟨f, fs, hstack, rfl, -⟩ := List.map_eq_cons_iff.1 h
  rw [frame, hstack]
  exact ends_pure rfl

theorem found_modifyFrame {t : Thread} {f : Frame → Checked Frame} {R : FrameShape → Prop} {top : FrameShape}
    {rest : List FrameShape} (h : t.shape.stack = top :: rest)
    (hf : ∀ g : Frame, g.shape = top → Found (f g) fun g' ↦ R g'.shape) :
    Found (t.modifyFrame f) fun t' ↦ ∃ top', R top' ∧ t'.shape = { t.shape with stack := top' :: rest } := by
  obtain ⟨g, gs, hstack, hg, hgs⟩ := List.map_eq_cons_iff.1 h
  unfold modifyFrame
  rw [hstack]
  refine ends_bind (hf g hg) fun g' hg' ↦ ends_pure ⟨g'.shape, hg', ?_⟩
  rw [shape, shape, List.map_cons, hgs]

end Thread

@[simp] theorem Thread.shape_start (id : ThreadId) (function : FunctionId) (registers : Nat) :
    (Thread.start id function registers).shape =
      ⟨id, [⟨function, none, registers, []⟩], .entry function, .entry function, true⟩ := by
  simp [Thread.start, Thread.shape, Frame.shape, Frame.enter, Frame.objects]

theorem Frame.found_write {f : Frame} {r : Register} (hr : r < f.shape.registers) (value : Expr) :
    Found (f.write r value) fun f' ↦ f'.shape = f.shape := by
  refine ends_bind (ends_demand (P := fun _ ↦ True) (fun h ↦ (h hr).elim) fun _ ↦ trivial) fun _ _ ↦
    ends_pure ?_
  rw [shape, shape, Array.size_setIfInBounds]
  rfl

namespace State

variable {s : State} {p : Program} {n : Nat} {P : ThreadShape → Prop} {t : ThreadShape} {r : Register}

@[simp] theorem shape_setThread (s : State) (t : Thread) : (s.setThread t).shape = s.shape.setThread t.shape := by
  simp only [shape, setThread, Shape.setThread, List.map_map]
  congr 1
  refine List.map_congr_left fun u _ ↦ ?_
  dsimp only [Function.comp]
  exact apply_ite Thread.shape _ _ _

theorem exists_thread? {id : ThreadId} (h : (s.shape.threads.map (·.id)).Nodup) (ht : t ∈ s.shape.threads)
    (hid : t.id = id) : ∃ u ∈ s.threads, s.thread? id = some u ∧ u.shape = t := by
  obtain ⟨u, hu, rfl⟩ := List.mem_map.1 ht
  have hnodup : (s.threads.map (·.id)).Nodup := by
    rw [shape, List.map_map] at h
    exact h
  obtain hfind | ⟨v, hfind⟩ := Option.eq_none_or_eq_some (s.thread? id)
  · have hne := List.find?_eq_none.1 hfind u hu
    rw [beq_iff_eq] at hne
    exact (hne hid).elim
  · have hv : v.id = id := by simpa using List.find?_some hfind
    obtain rfl : v = u :=
      List.inj_on_of_nodup_map hnodup (List.mem_of_find?_eq_some hfind) hu (hv.trans hid.symm)
    exact ⟨v, hu, hfind, rfl⟩

theorem found_thread (h : (s.shape.threads.map (·.id)).Nodup) (ht : s.shape.Runs t) :
    Found s.thread fun u ↦ u.shape = t := by
  obtain ⟨u, -, hu, hshape⟩ := exists_thread? h ht.1 ht.2
  rw [thread, show s.thread? s.current = some u from hu]
  exact ends_pure hshape

theorem found_frame (h : (s.shape.threads.map (·.id)).Nodup) (ht : s.shape.Runs t) {top : FrameShape}
    {rest : List FrameShape} (hstack : t.stack = top :: rest) : Found s.frame fun f ↦ f.shape = top :=
  ends_bind (found_thread h ht) fun _ hu ↦
    Thread.found_frame ((congrArg ThreadShape.stack hu).trans hstack)

theorem found_modifyThread {f : Thread → Checked Thread} {R : ThreadShape → Prop}
    (h : (s.shape.threads.map (·.id)).Nodup) (ht : s.shape.Runs t)
    (hf : ∀ u : Thread, u.shape = t → Found (f u) fun u' ↦ R u'.shape) :
    Found (s.modifyThread f) fun s' ↦ s'.id = s.id ∧ ∃ t', R t' ∧ s'.shape = s.shape.setThread t' :=
  ends_bind (found_thread h ht) fun u hu ↦ ends_bind (hf u hu) fun u' hu' ↦
    ends_pure ⟨rfl, u'.shape, hu', shape_setThread s u'⟩

theorem found_modifyFrame {f : Frame → Checked Frame} {R : FrameShape → Prop} {top : FrameShape}
    {rest : List FrameShape} (h : (s.shape.threads.map (·.id)).Nodup) (ht : s.shape.Runs t)
    (hstack : t.stack = top :: rest) (hf : ∀ g : Frame, g.shape = top → Found (f g) fun g' ↦ R g'.shape) :
    Found (s.modifyFrame f) fun s' ↦ s'.id = s.id ∧
      ∃ top', R top' ∧ s'.shape = s.shape.setThread { t with stack := top' :: rest } := by
  refine (found_modifyThread (R := fun t' ↦ ∃ top', R top' ∧ t' = { t with stack := top' :: rest }) h ht
    fun u hu ↦ ?_).mono ?_
  · subst hu
    exact Thread.found_modifyFrame hstack hf
  · rintro s' ⟨hid, _, ⟨top', htop', rfl⟩, hshape⟩
    exact ⟨hid, top', htop', hshape⟩

theorem found_write (h : (s.shape.threads.map (·.id)).Nodup) (hr : s.shape.HasRegister r) (value : Expr) :
    Found (s.write r value) fun s' ↦ s'.id = s.id ∧ s'.shape = s.shape := by
  obtain ⟨t, ht, top, rest, hstack, hlt⟩ := hr
  refine (found_modifyFrame (R := (· = top)) h ht hstack fun g hg ↦ ?_).mono ?_
  · subst hg
    exact Frame.found_write hlt value
  · rintro s' ⟨hid, _, rfl, hshape⟩
    rw [← hstack, setThread_self h ht.1] at hshape
    exact ⟨hid, hshape⟩

/-! ## Moves of the current thread -/

section

variable {l : Location}

theorem found_moveThread {f : Thread → Checked Thread} {Q : ThreadShape → Prop}
    (h : s.shape.Threaded p P) (hkept : s.shape.Kept p n) (ht : s.shape.Runs t)
    (hf : ∀ u : Thread, u.shape = t → Found (f u) fun u' ↦
      u'.shape.id = t.id ∧ u'.shape.stack = t.stack ∧ Q u'.shape) :
    Found (s.modifyThread f) fun s' ↦ s'.id = s.id ∧ s'.shape.Threaded p Q ∧ s'.shape.Kept p n := by
  refine (found_modifyThread (R := fun t' ↦ t'.id = t.id ∧ t'.stack = t.stack ∧ Q t') h.nodup ht hf).mono ?_
  rintro s' ⟨hid, t', ⟨hid', hstack, hQ⟩, hshape⟩
  rw [hshape]
  refine ⟨hid, h.setThread (hid'.trans ht.2) hQ, hkept.setThread h.nodup ht.1 hid' ?_⟩
  rw [ThreadShape.held, hstack]
  exact .rfl

theorem found_advance (h : s.shape.InOrder p n) (ht : s.shape.Runs t) :
    Found (s.modifyThread fun u ↦ return u.advance) fun s' ↦
      s'.id = s.id ∧ s'.shape.Midway p t.pc ∧ s'.shape.Kept p n := by
  obtain ⟨v, hv, hvid, henabled, hplaced⟩ := h.controlled.current
  obtain rfl := eq_of_id_eq h.controlled.nodup ht.1 hv (ht.2.trans hvid.symm)
  refine found_moveThread h.controlled h.kept ht fun u hu ↦ ?_
  subst hu
  exact ends_pure ⟨rfl, rfl, hplaced.1, henabled, rfl, rfl⟩

theorem found_jumpTo {block : BlockId} (h : s.shape.Midway p l) (hkept : s.shape.Kept p n)
    (hblock : (p.instruction? ⟨l.function, block, 0⟩).isSome) :
    Found (s.modifyThread fun u ↦ return u.jumpTo block) fun s' ↦ s'.id = s.id ∧ s'.shape.InOrder p n := by
  obtain ⟨t, ht, hid, hmidway⟩ := h.current
  refine (found_moveThread (Q := fun t ↦ t.enabled = true ∧ t.Placed p) h hkept ⟨ht, hid⟩ fun u hu ↦ ?_).mono
    fun s' hs' ↦ ⟨hs'.1, hs'.2.1, hs'.2.2⟩
  subst hu
  have hpc : (u.jumpTo block).shape.pc = ⟨l.function, block, 0⟩ := by
    rw [← show u.prevPc = l from hmidway.prevPc_eq]
    rfl
  refine ends_pure ⟨rfl, rfl, hmidway.enabled, ?_⟩
  rw [ThreadShape.Placed, hpc]
  exact ⟨hmidway.inside, hblock⟩

theorem found_sleep (h : s.shape.InOrder p n) (list : WaitListId) :
    Found (s.sleep list) fun s' ↦ s'.id = s.id ∧ s'.shape.Loose p ∧ s'.shape.Kept p n := by
  obtain ⟨t, ht, hid, -, hplaced⟩ := h.controlled.current
  refine ends_bind (found_moveThread (Q := (·.Placed p)) h.controlled h.kept ⟨ht, hid⟩ fun u hu ↦ ?_)
    fun s' hs' ↦ ends_pure ⟨hs'.1, hs'.2.1.loose fun _ h ↦ h, hs'.2.2⟩
  subst hu
  exact ends_pure ⟨rfl, rfl, hplaced⟩

/-! ## Calls and returns -/

theorem found_unbindAll {os : List MemoryObject} {held : List MemoryObject}
    (howned : Owned p n (os ++ held) s.shape.objects s.shape.pool) (hascending : Ascending s.shape.objects) :
    Found (s.unbindAll os) fun s' ↦ s'.id = s.id ∧ s'.shape.threads = s.shape.threads ∧
      s'.shape.current = s.shape.current ∧ s'.shape.nextThreadId = s.shape.nextThreadId ∧
      Owned p n held s'.shape.objects s'.shape.pool ∧ Ascending s'.shape.objects := by
  obtain ⟨rest, hobjects, hrest⟩ := howned.exists_release
  refine ends_bind (AddressSpace.found_unbindAll (ascending_outline.1 hascending) hobjects) fun m' hm' ↦
    ends_pure ⟨rfl, rfl, rfl, rfl, hrest.perm .rfl hm'.2, ascending_outline.2 hm'.1⟩

theorem found_popFrame {top : FrameShape} {rest : List FrameShape} (h : s.shape.Threaded p P)
    (hkept : s.shape.Kept p n) (ht : s.shape.Runs t) (hstack : t.stack = top :: rest) :
    Found s.popFrame fun q ↦ q.2.id = s.id ∧ q.2.shape.Threaded p (· = { t with stack := rest }) ∧
      q.2.shape.Kept p n := by
  obtain ⟨others, hheld, hafter, -⟩ := exists_held h.nodup ht.1
  have hset : (s.shape.setThread { t with stack := rest }).Threaded p (· = { t with stack := rest }) :=
    h.setThread ht.2 rfl
  have howned : Owned p n (top.objects ++ (s.shape.setThread { t with stack := rest }).held)
      s.shape.objects s.shape.pool := by
    refine hkept.owned.perm ?_ .rfl
    refine ((hafter { t with stack := rest } rfl).append_left _).trans (.trans ?_ hheld.symm)
    rw [ThreadShape.held, ThreadShape.held, hstack, List.flatMap_cons, List.append_assoc]
  refine ends_bind (found_thread h.nodup ht) fun u hu ↦ ?_
  subst hu
  obtain ⟨f, fs, hfs, rfl, rfl⟩ := List.map_eq_cons_iff.1 hstack
  rw [hfs]
  have hshape := shape_setThread s { u with stack := fs }
  refine ends_bind (found_unbindAll (s := s.setThread { u with stack := fs }) howned hkept.ascending) ?_
  rintro s' ⟨hid, hthreads, hcurrent, hnext, howned', hascending⟩
  rw [hshape] at hthreads hcurrent hnext
  refine ends_pure ⟨hid, ⟨hthreads ▸ hset.nodup, ?_, ?_, ?_⟩, ?_, hascending⟩
  · rw [hthreads, hnext]
    exact hset.id_lt
  · rw [hthreads, hcurrent]
    exact hset.others
  · rw [hthreads, hcurrent]
    exact hset.current
  · rw [Shape.held, hthreads]
    exact howned'

theorem found_return {site : CallSite} {top : FrameShape} {rest : List FrameShape} (h : s.shape.Midway p l)
    (hkept : s.shape.Kept p n) (ht : s.shape.Runs t) (hstack : t.stack = top :: rest)
    (hcaller : top.caller = some site) :
    Found (do
      let (_, s) ← s.popFrame
      s.modifyThread fun u ↦ return { u with pc := site.call.next }) fun s' ↦
        s'.id = s.id ∧ s'.shape.InOrder p n ∧ ∀ r, site.destination = some r → s'.shape.HasRegister r := by
  obtain ⟨v, hv, hvid, hmidway⟩ := h.current
  obtain rfl := eq_of_id_eq h.nodup ht.1 hv (ht.2.trans hvid.symm)
  have hlinked := hmidway.inside.linked
  rw [hstack] at hlinked
  obtain ⟨below, rest', rfl, hreturns, hbelow⟩ := hlinked.pop hcaller
  refine ends_bind (found_popFrame h hkept ht hstack) ?_
  rintro ⟨_, s'⟩ ⟨hid, hthreaded, hkept'⟩
  obtain ⟨u, hu, huid, rfl⟩ := hthreaded.current
  refine (found_moveThread (Q := fun t ↦ (t.enabled = true ∧ t.Placed p) ∧ t.stack = below :: rest')
    hthreaded hkept' ⟨hu, huid⟩ fun v hv ↦ ?_).mono ?_
  · have hstack : v.shape.stack = below :: rest' := congrArg ThreadShape.stack hv
    have hplaced : ThreadShape.In p site.call.next.function { v.shape with pc := site.call.next } :=
      ⟨below, rest', hstack, hreturns.function_eq.symm, hbelow⟩
    refine ends_pure ⟨(congrArg ThreadShape.id hv :), hstack, ⟨?_, hplaced, hreturns.next⟩, hstack⟩
    exact (congrArg ThreadShape.enabled hv :).trans hmidway.enabled
  · rintro s'' ⟨hid', hthreaded', hkept''⟩
    refine ⟨hid'.trans hid, ⟨hthreaded'.imp fun _ h ↦ h.1, hkept''⟩, fun r hr ↦ ?_⟩
    obtain ⟨w, hw, hwid, -, hwstack⟩ := hthreaded'.current
    exact ⟨w, ⟨hw, hwid⟩, below, rest', hwstack, hreturns.destination_lt r hr⟩

theorem found_writeArguments (h : (s.shape.threads.map (·.id)).Nodup) {arguments : List Expr}
    (hr : ∀ r < arguments.length, s.shape.HasRegister r) :
    Found (arguments.zipIdx.foldlM (fun s (argument, i) ↦ s.write i argument) s) fun s' ↦
      s'.id = s.id ∧ s'.shape = s.shape := by
  refine ends_foldlM ⟨rfl, rfl⟩ fun x hx s' hs' ↦ ?_
  have hlt := (List.mem_zipIdx' hx).1
  refine (found_write (hs'.2 ▸ h) (hs'.2 ▸ hr x.2 hlt) x.1).mono fun s'' hs'' ↦ ?_
  exact ⟨hs''.1.trans hs'.1, hs''.2.trans hs'.2⟩

theorem found_newFrame {site : Option CallSite} {id : FunctionId} {registers : Nat} {arguments : List Expr}
    {varargs : Option MemoryObject} {k : State → Checked State} {Q : State → Prop}
    (h : (s.shape.threads.map (·.id)).Nodup) (ht : s.shape.Runs t) (harguments : arguments.length ≤ registers)
    (hk : ∀ s' : State, s'.id = s.id → s'.shape =
      s.shape.setThread (t.push ⟨id, site, registers, varargs.toList⟩) → Found (k s') Q) :
    Found (do
      let s ← s.pushFrame site id registers
      let s ← arguments.zipIdx.foldlM (fun s (argument, i) ↦ s.write i argument) s
      let s ← s.modifyFrame fun f ↦ return { f with varargs }
      k s) Q := by
  refine ends_bind (found_modifyThread (R := (· = t.push ⟨id, site, registers, []⟩)) h ht fun u hu ↦ ?_) ?_
  · subst hu
    refine ends_pure ?_
    rw [Thread.shape, List.map_cons, Frame.shape, Frame.enter, Array.size_replicate]
    rfl
  · rintro s₁ ⟨hid₁, _, rfl, hshape₁⟩
    have hnodup : (s₁.shape.threads.map (·.id)).Nodup := by
      rw [hshape₁, map_id_setThread]
      exact h
    have hruns : s₁.shape.Runs (t.push ⟨id, site, registers, []⟩) := by
      rw [hshape₁]
      exact ⟨mem_setThread_self ht.1 rfl, ht.2⟩
    refine ends_bind (found_writeArguments hnodup fun r hr ↦ ?_) fun s₂ hs₂ ↦ ?_
    · exact ⟨_, hruns, _, _, rfl, Nat.lt_of_lt_of_le hr harguments⟩
    · rw [← hs₂.2] at hnodup hruns
      refine ends_bind (found_modifyFrame (R := (· = ⟨id, site, registers, varargs.toList⟩)) hnodup hruns
        rfl fun g hg ↦ ?_) ?_
      · have hallocas : g.allocas = [] := (List.append_eq_nil_iff.1 (congrArg FrameShape.objects hg)).1
        have hframe : Frame.shape { g with varargs } = { g.shape with objects := varargs.toList } := by
          rw [Frame.shape, Frame.objects, hallocas]
          rfl
        exact ends_pure (by rw [hframe, hg])
      · rintro s₃ ⟨hid₃, _, rfl, hshape₃⟩
        refine hk s₃ (hid₃.trans (hs₂.1.trans hid₁)) (hshape₃.trans ?_)
        rw [hs₂.2, hshape₁]
        exact setThread_setThread rfl

theorem found_enter {site : CallSite} {id : FunctionId} {callee : Function} {arguments : List Expr}
    {varargs : Option MemoryObject} (h : s.shape.Midway p l)
    (howned : Owned p n (varargs.toList ++ s.shape.held) s.shape.objects s.shape.pool)
    (hascending : Ascending s.shape.objects) (hcallee : p.functions[id]? = some callee)
    (hentry : (p.instruction? (.entry id)).isSome) (harguments : arguments.length ≤ callee.registers)
    (hsite : ∀ top, top.function = l.function → top.Sized p → site.Returns p top) :
    Found (do
      let s ← s.pushFrame (some site) id callee.registers
      let s ← arguments.zipIdx.foldlM (fun s (argument, i) ↦ s.write i argument) s
      let s ← s.modifyFrame fun f ↦ return { f with varargs }
      s.modifyThread fun t ↦ return { t with pc := .entry id, incoming := none }) fun s' ↦
        s'.id = s.id ∧ s'.shape.InOrder p n := by
  obtain ⟨t, ht, hid, hmidway⟩ := h.current
  obtain ⟨top, rest, hstack, hfunction, hlinked⟩ := hmidway.inside
  obtain ⟨others, hheld, hafter, -⟩ := exists_held h.nodup ht
  refine found_newFrame h.nodup ⟨ht, hid⟩ harguments fun s₁ hid₁ hshape₁ ↦ ?_
  have hnodup : (s₁.shape.threads.map (·.id)).Nodup := by
    rw [hshape₁, map_id_setThread]
    exact h.nodup
  have hruns : s₁.shape.Runs (t.push ⟨id, some site, callee.registers, varargs.toList⟩) := by
    rw [hshape₁]
    exact ⟨mem_setThread_self ht rfl, hid⟩
  refine (found_modifyThread (R := (· = { t.push ⟨id, some site, callee.registers, varargs.toList⟩ with
    pc := .entry id })) hnodup hruns fun u hu ↦ ?_).mono ?_
  · have hmoved : Thread.shape { u with pc := .entry id, incoming := none } =
        { u.shape with pc := .entry id } := rfl
    exact ends_pure (by rw [hmoved, hu])
  · rintro s₂ ⟨hid₂, _, rfl, hshape₂⟩
    have hshape := hshape₂.trans ((congrArg (Shape.setThread · _) hshape₁).trans (setThread_setThread rfl))
    refine ⟨hid₂.trans hid₁, ?_, ?_, ?_⟩
    · rw [hshape]
      refine h.setThread hid ⟨hmidway.enabled, ⟨_, _, rfl, rfl, ?_⟩, hentry⟩
      rw [hstack]
      exact hlinked.push ⟨callee, hcallee, rfl⟩ rfl (hsite top hfunction hlinked.sized)
    · rw [hshape]
      refine howned.perm (.trans ?_ (hheld.symm.append_left _)) .rfl
      rw [← List.append_assoc]
      exact hafter { t.push ⟨id, some site, callee.registers, varargs.toList⟩ with pc := .entry id } rfl
    · rw [hshape]
      exact hascending

end

/-! ## Objects -/

theorem found_bind {contents : ObjectState} (hkept : s.shape.Kept p n)
    (ho : contents.object.Fits p s.shape.objects s.shape.pool) (hid : contents.object.id < n) :
    Found (s.memory.bind contents) fun m ↦ Ascending m.outline ∧
      Owned p n (if contents.object.isLocal then contents.object :: s.shape.held else s.shape.held)
        m.outline s.pool := by
  have hkey : ∀ e ∈ s.memory.outline, e.1 ≠ contents.object.key := by
    intro e he heq
    rw [hkept.owned.keyed e he] at heq
    exact Nat.ne_of_lt (ho.fresh e he) (congrArg ObjectKey.id heq)
  refine (AddressSpace.found_bind (ascending_outline.1 hkept.ascending) hkey).mono fun m hm ↦ ?_
  exact ⟨ascending_outline.2 hm.1, (hkept.owned.bind ho hid).perm .rfl hm.2⟩

theorem found_bindHeap {contents : ObjectState} (h : s.shape.InOrder p n)
    (ho : contents.object.Fits p s.shape.objects s.shape.pool) (hid : contents.object.id < n)
    (hlocal : contents.object.isLocal = false) :
    Found (do return { s with memory := ← s.memory.bind contents } : Checked State) fun s' ↦ s'.id = s.id ∧
      s'.shape.InOrder p n ∧ ∀ r, s.shape.HasRegister r → s'.shape.HasRegister r := by
  refine ends_bind (found_bind h.kept ho hid) fun m hm ↦ ends_pure ⟨rfl, ⟨?_, ?_, hm.1⟩, fun r hr ↦ hr⟩
  · exact h.controlled.withObjects _
  · have howned := hm.2
    rw [hlocal] at howned
    exact howned

theorem found_bindLocal {contents : ObjectState} (h : s.shape.InOrder p n)
    (ho : contents.object.Fits p s.shape.objects s.shape.pool) (hid : contents.object.id < n)
    (hlocal : contents.object.isLocal = true) :
    Found (s.bindLocal contents) fun s' ↦ s'.id = s.id ∧ s'.shape.InOrder p n ∧
      ∀ r, s.shape.HasRegister r → s'.shape.HasRegister r := by
  refine ends_bind (found_bind h.kept ho hid) fun m hm ↦ ?_
  have hcontrolled := h.controlled.withObjects m.outline
  obtain ⟨t, ht, htid, henabled, hplaced⟩ := hcontrolled.current
  obtain ⟨top, rest, hstack, hfunction, hlinked⟩ := hplaced.1
  obtain ⟨others, hheld, hafter, -⟩ := exists_held hcontrolled.nodup ht
  refine (found_modifyFrame (s := { s with memory := m }) (R := fun top' ↦
    top'.function = top.function ∧ top'.caller = top.caller ∧ top'.registers = top.registers ∧
      top'.objects.Perm (contents.object :: top.objects)) hcontrolled.nodup ⟨ht, htid⟩ hstack
        fun g hg ↦ ?_).mono ?_
  · subst hg
    refine ends_pure ⟨rfl, rfl, rfl, ?_⟩
    change (g.allocas ++ [contents.object] ++ g.varargs.toList).Perm _
    rw [List.append_assoc]
    exact List.perm_middle
  · rintro s' ⟨hid', top', ⟨hf', hc', hr', ho'⟩, hshape⟩
    have hplaced' : ThreadShape.Placed p { t with stack := top' :: rest } :=
      ⟨⟨top', rest, rfl, hf'.trans hfunction, hlinked.replace hf' hc' hr'⟩, hplaced.2⟩
    have hheld' : ({ t with stack := top' :: rest } : ThreadShape).held.Perm
        (contents.object :: t.held) := by
      rw [ThreadShape.held, ThreadShape.held, hstack, List.flatMap_cons, List.flatMap_cons]
      exact ho'.append_right _
    have howned := hm.2
    rw [if_pos hlocal] at howned
    rw [hshape]
    refine ⟨hid', ⟨?_, ?_, hm.1⟩, fun r hr ↦ ?_⟩
    · exact Threaded.setThread hcontrolled htid ⟨henabled, hplaced'⟩
    · refine howned.perm ((hafter { t with stack := top' :: rest } rfl).trans ?_) .rfl
      exact (hheld'.append_right others).trans (hheld.symm.cons _)
    · refine HasRegister.setThread hr hcontrolled.nodup ⟨ht, htid⟩ rfl fun top₁ rest₁ hstack₁ ↦ ?_
      obtain ⟨rfl, rfl⟩ := List.cons.inj (hstack.symm.trans hstack₁)
      exact ⟨top', rfl, hr'⟩

theorem found_unbind {o : MemoryObject} (h : s.shape.InOrder p n) (ho : (o.key, o) ∈ s.shape.objects)
    (hlocal : o.isLocal = false) :
    Found (s.unbindAll [o]) fun s' ↦ s'.id = s.id ∧ s'.shape.InOrder p n ∧
      (∀ r, s.shape.HasRegister r → s'.shape.HasRegister r) ∧
      (∀ e ∈ s'.shape.objects, e ∈ s.shape.objects) ∧ s'.shape.pool = s.shape.pool := by
  refine ends_bind (ends_bind (AddressSpace.found_unbind (ascending_outline.1 h.kept.ascending) ho)
    fun m hm ↦ ends_pure hm) fun m hm ↦ ends_pure ⟨rfl, ⟨?_, ?_, ?_⟩, fun r hr ↦ hr, fun e he ↦ ?_, rfl⟩
  · exact h.controlled.withObjects _
  · exact (h.kept.owned.perm .rfl hm.2.symm).unbind hlocal
  · exact ascending_outline.2 hm.1
  · exact hm.2.mem_iff.2 (List.mem_cons_of_mem _ he)

theorem found_replaceContents {o : MemoryObject} {contents : ObjectState} (h : s.shape.InOrder p n)
    (ho : (o.key, o) ∈ s.shape.objects) (hcontents : contents.object = o) :
    Found (do return { s with memory := ← (← s.memory.unbind o).bind contents } : Checked State) fun s' ↦
      s'.id = s.id ∧ s'.shape.InOrder p n := by
  subst hcontents
  refine ends_bind (AddressSpace.found_unbind (ascending_outline.1 h.kept.ascending) ho) fun m hm ↦ ?_
  have howned := h.kept.owned.perm .rfl hm.2.symm
  have hkey : ∀ e ∈ m.outline, e.1 ≠ contents.object.key := by
    intro e he heq
    rw [howned.keyed e (List.mem_cons_of_mem _ he)] at heq
    have hids := (List.nodup_cons.1 howned.ids).1
    exact hids (List.mem_map.2 ⟨e, he, congrArg ObjectKey.id heq⟩)
  refine ends_bind (AddressSpace.found_bind hm.1 hkey) fun m' hm' ↦ ends_pure ⟨rfl, ⟨?_, ?_, ?_⟩⟩
  · exact h.controlled.withObjects _
  · exact howned.perm .rfl hm'.2
  · exact ascending_outline.2 hm'.1

theorem found_modify {o : MemoryObject} {f : ObjectState → Checked ObjectState}
    (hascending : Ascending s.shape.objects) (ho : ∃ o', (o.key, o') ∈ s.shape.objects)
    (hf : ∀ x, Found (f x) fun y ↦ y.object = x.object) :
    Found (do return { s with memory := ← s.memory.modify o f } : Checked State) fun s' ↦
      s'.id = s.id ∧ s'.shape = s.shape := by
  refine ends_bind (AddressSpace.found_modify (ascending_outline.1 hascending) ho hf) fun m hm ↦
    ends_pure ⟨rfl, ?_⟩
  rw [shape, hm]
  rfl

/-! ## Threads that come and go -/

section

variable {function : FunctionId} {callee : Function} {id : ThreadId}

theorem found_exit (h : s.shape.Threaded p P) (hkept : s.shape.Kept p n) :
    Found (s.terminateThread s.current) fun s' ↦ s'.id = s.id ∧ s'.shape.Loose p ∧ s'.shape.Kept p n := by
  obtain ⟨t, ht, hid, -⟩ := h.current
  obtain ⟨u, -, hu, rfl⟩ := exists_thread? h.nodup ht hid
  obtain ⟨others, hheld, -, hothers⟩ := exists_held h.nodup ht
  rw [hid] at hothers
  have hthreads : (s.threads.filter (·.id ≠ s.current)).map (·.shape) =
      s.shape.threads.filter (·.id ≠ s.shape.current) := by
    rw [shape, List.filter_map]
    rfl
  have howned : Owned p n (u.stack.reverse.flatMap (·.objects) ++
      (s.shape.threads.filter (·.id ≠ s.shape.current)).flatMap (·.held)) s.shape.objects s.shape.pool := by
    refine hkept.owned.perm (.trans ?_ hheld.symm) .rfl
    rw [hothers, Thread.shape, ThreadShape.held, List.flatMap_map]
    exact ((List.reverse_perm u.stack).flatMap_right _).append_right others
  unfold terminateThread
  rw [show s.thread? s.current = some u from hu]
  dsimp only
  refine Ends.mono (found_unbindAll howned hkept.ascending) ?_
  rintro s' ⟨hid', hthreads', -, hnext, howned', hascending⟩
  have hleft : s'.shape.threads = s.shape.threads.filter (·.id ≠ s.shape.current) := hthreads'.trans hthreads
  refine ⟨hid', ⟨?_, fun v hv ↦ ?_, fun v hv ↦ ?_⟩, ?_, hascending⟩
  · rw [hleft]
    exact h.nodup.sublist (List.filter_sublist.map _)
  · rw [hleft, List.mem_filter] at hv
    exact hnext ▸ h.id_lt v hv.1
  · rw [hleft, List.mem_filter] at hv
    exact h.others v hv.1 (by simpa using hv.2)
  · rw [Shape.held, hleft]
    exact howned'

theorem inOrder_createThread (h : s.shape.InOrder p n) (hcallee : p.functions[function]? = some callee)
    (hentry : (p.instruction? (.entry function)).isSome) :
    (s.createThread function callee.registers).2.shape.InOrder p n ∧
      ∀ r, s.shape.HasRegister r → (s.createThread function callee.registers).2.shape.HasRegister r := by
  have hthreads : (s.createThread function callee.registers).2.shape.threads =
      s.shape.threads ++ [(Thread.start s.nextThreadId function callee.registers).shape] := List.map_append
  have hold : ∀ t ∈ s.shape.threads, t ∈ (s.createThread function callee.registers).2.shape.threads := by
    intro t ht
    rw [hthreads]
    exact List.mem_append_left _ ht
  have hplaced : (Thread.start s.nextThreadId function callee.registers).shape.Placed p := by
    rw [Thread.shape_start]
    exact ⟨⟨_, [], rfl, rfl, ⟨callee, hcallee, rfl⟩, rfl⟩, hentry⟩
  refine ⟨⟨⟨?_, fun t ht ↦ ?_, fun t ht hne ↦ ?_, ?_⟩, ?_, h.kept.ascending⟩, ?_⟩
  · rw [hthreads, List.map_append, List.nodup_append]
    refine ⟨h.controlled.nodup, List.nodup_singleton _, fun a ha b hb ↦ ?_⟩
    obtain ⟨t, ht, rfl⟩ := List.mem_map.1 ha
    obtain rfl := List.mem_singleton.1 hb
    exact Nat.ne_of_lt (h.controlled.id_lt t ht)
  · rw [hthreads, List.mem_append, List.mem_singleton] at ht
    obtain ht | rfl := ht
    · exact Nat.lt_succ_of_lt (h.controlled.id_lt t ht)
    · exact Nat.lt_succ_self _
  · rw [hthreads, List.mem_append, List.mem_singleton] at ht
    obtain ht | rfl := ht
    · exact h.controlled.others t ht hne
    · exact hplaced
  · obtain ⟨t, ht, hrest⟩ := h.controlled.current
    exact ⟨t, hold t ht, hrest⟩
  · have hheld : (s.createThread function callee.registers).2.shape.held = s.shape.held := by
      rw [Shape.held, hthreads, List.flatMap_append]
      exact List.append_nil _
    rw [hheld]
    exact h.kept.owned
  · rintro r ⟨t, ht, hrest⟩
    exact ⟨t, ⟨hold t ht.1, ht.2⟩, hrest⟩

theorem found_firstArgument {registers : Nat} {t : Thread}
    (hnodup : ((s.createThread function registers).2.shape.threads.map (·.id)).Nodup)
    (ht : (s.createThread function registers).2.thread? s.nextThreadId = some t) (hregisters : 0 < registers)
    (value : Expr) :
    Found (t.modifyFrame (·.write 0 value)) fun t' ↦
      ((s.createThread function registers).2.setThread t').shape =
        (s.createThread function registers).2.shape := by
  have hmem : t.shape ∈ (s.createThread function registers).2.shape.threads :=
    List.mem_map_of_mem (List.mem_of_find?_eq_some ht)
  have hid : t.id = s.nextThreadId := by simpa using List.find?_some ht
  have hstart : t.shape = (Thread.start s.nextThreadId function registers).shape :=
    eq_of_id_eq hnodup hmem (by simp [createThread, shape]) hid
  rw [Thread.shape_start] at hstart
  refine (Thread.found_modifyFrame (R := (· = ⟨function, none, registers, []⟩))
    (congrArg ThreadShape.stack hstart : t.shape.stack = [_]) fun g hg ↦ ?_).mono ?_
  · refine (Frame.found_write ?_ value).mono fun g' hg' ↦ hg'.trans hg
    rw [hg]
    exact hregisters
  · rintro t' ⟨_, rfl, ht'⟩
    have hself : t'.shape = t.shape := by rw [ht', hstart]
    rw [shape_setThread, hself]
    exact setThread_self hnodup hmem

theorem mem_enabledThreads : id ∈ s.enabledThreads ↔ ∃ t ∈ s.shape.threads, t.enabled = true ∧ t.id = id := by
  simp only [enabledThreads, shape, List.mem_map, List.mem_filter]
  constructor
  · rintro ⟨t, ⟨ht, henabled⟩, rfl⟩
    exact ⟨t.shape, ⟨t, ht, rfl⟩, henabled, rfl⟩
  · rintro ⟨_, ⟨t, ht, rfl⟩, henabled, rfl⟩
    exact ⟨t, ⟨ht, henabled⟩, rfl⟩

theorem mem_enabledThreads_of_nextThread {after : ThreadId} (h : s.nextThread after = some id) :
    id ∈ s.enabledThreads := by
  rw [nextThread, List.partition_eq_filter_filter] at h
  have hmem := List.mem_of_mem_head? h
  rw [List.mem_append, List.mem_filter, List.mem_filter] at hmem
  exact hmem.elim (·.1) (·.1)

theorem found_scheduleNext (h : s.shape.Loose p) (hkept : s.shape.Kept p n) (hid : id ∈ s.enabledThreads) :
    Found (s.scheduleNext id) fun s' ↦ s'.id = s.id ∧ s'.shape.InOrder p n := by
  obtain ⟨t, ht, henabled, rfl⟩ := mem_enabledThreads.1 hid
  obtain ⟨u, -, hu, rfl⟩ := exists_thread? h.nodup ht rfl
  unfold scheduleNext
  rw [hu]
  refine ends_bind (ends_pure rfl : Found (Checked.ofOption (some u)) (· = u)) ?_
  rintro u rfl
  refine ends_bind (P := fun _ ↦ True) (ends_demand (fun hne ↦ absurd henabled hne) fun _ ↦ trivial)
    fun _ _ ↦ ends_pure ⟨rfl, ⟨?_, hkept.owned, hkept.ascending⟩⟩
  exact ⟨h.nodup, h.id_lt, fun v hv _ ↦ h.placed v hv, u.shape, ht, rfl, henabled, h.placed _ ht⟩

theorem inOrder_wake {wakes : Thread → Prop} [DecidablePred wakes] (h : s.shape.InOrder p n)
    (waitLists : Std.TreeMap WaitListId (List ThreadId)) :
    Shape.InOrder p n (State.shape { s with
      waitLists, threads := s.threads.map fun t ↦ if wakes t then t.wake else t }) := by
  have hwake : ∀ t : Thread, (if wakes t then t.wake else t).shape =
      { t.shape with enabled := (if wakes t then t.wake else t).enabled } ∧
        (t.enabled = true → (if wakes t then t.wake else t).enabled = true) := by
    intro t
    split
    · exact ⟨rfl, fun _ ↦ rfl⟩
    · exact ⟨rfl, fun h ↦ h⟩
  have hmem : ∀ t ∈ (s.threads.map fun t ↦ if wakes t then t.wake else t).map (·.shape),
      ∃ u ∈ s.shape.threads, ∃ enabled, t = { u with enabled } ∧ (u.enabled = true → enabled = true) := by
    intro t ht
    rw [List.map_map] at ht
    obtain ⟨u, hu, rfl⟩ := List.mem_map.1 ht
    exact ⟨u.shape, List.mem_map_of_mem hu, _, (hwake u).1, (hwake u).2⟩
  have hids : ((s.threads.map fun t ↦ if wakes t then t.wake else t).map (·.shape)).map (·.id) =
      s.shape.threads.map (·.id) := by
    simp only [shape, List.map_map]
    refine List.map_congr_left fun t _ ↦ ?_
    dsimp only [Function.comp]
    rw [(hwake t).1]
  have hheld : ((s.threads.map fun t ↦ if wakes t then t.wake else t).map (·.shape)).flatMap (·.held) =
      s.shape.held := by
    simp only [Shape.held, shape, List.map_map, List.flatMap_map]
    refine List.flatMap_congr fun t _ ↦ ?_
    dsimp only [Function.comp]
    rw [(hwake t).1]
    rfl
  refine ⟨⟨?_, fun t ht ↦ ?_, fun t ht hne ↦ ?_, ?_⟩, ?_, h.kept.ascending⟩
  · exact hids ▸ h.controlled.nodup
  · obtain ⟨u, hu, _, rfl, -⟩ := hmem t ht
    exact h.controlled.id_lt u hu
  · obtain ⟨u, hu, _, rfl, -⟩ := hmem t ht
    exact h.controlled.others u hu hne
  · obtain ⟨_, ht, hid, henabled, hplaced⟩ := h.controlled.current
    obtain ⟨t, hmem, rfl⟩ := List.mem_map.1 ht
    refine ⟨_, List.mem_map_of_mem (List.mem_map_of_mem hmem), ?_⟩
    rw [(hwake t).1]
    exact ⟨hid, (hwake t).2 henabled, hplaced⟩
  · change Owned p n (((s.threads.map fun t ↦ if wakes t then t.wake else t).map (·.shape)).flatMap
      (·.held)) s.shape.objects s.shape.pool
    rw [hheld]
    exact h.kept.owned

end

/-! ## Reports -/

theorem plain_stackTrace (h : s.shape.Traceable p) : Plain (s.stackTrace p) := by
  have htrace : ∀ stack : List Frame, (∀ f ∈ stack, ∃ function, p.functions[f.function]? = some function) →
      ∀ l, Plain (traceFrom p l stack) := by
    intro stack hstack
    induction stack with
    | nil => exact fun _ ↦ plain_pure _
    | cons f rest ih =>
      rw [List.forall_mem_cons] at hstack
      obtain ⟨function, hfunction⟩ := hstack.1
      have hname : Plain (p.function f.function) := by
        unfold Program.function
        rw [hfunction]
        exact plain_pure _
      exact fun _ ↦ plain_bind hname fun _ ↦ plain_bind (ih hstack.2 _) fun _ ↦ plain_pure _
  unfold stackTrace
  split
  · exact plain_pure _
  · rename_i t ht
    refine htrace _ (fun f hf ↦ ?_) _
    exact h t.shape (List.mem_map_of_mem (List.mem_of_find?_eq_some ht)) f.shape (List.mem_map_of_mem hf)

/-! ## Merging -/

theorem found_mapM_zip {α β γ : Type} {f : α × β → Checked α} {g : α → γ} {l : List α} {l' : List β}
    (hlength : l.length = l'.length) (hf : ∀ q ∈ l.zip l', Found (f q) fun a ↦ g a = g q.1) :
    Found ((l.zip l').mapM f) fun r ↦ r.map g = l.map g := by
  have hr := found_mapM hf
  rwa [← Function.comp_def, ← List.map_map, List.map_fst_zip (Nat.le_of_eq hlength)] at hr

theorem found_mergeFrame (inFirst : Expr) {f g : Frame} (h : f.sameShape g = true) :
    Found (mergeFrame inFirst f g) fun r ↦ r.shape = f.shape := by
  have hlocal : ∀ a b, Plain (mergeLocal inFirst a b) := by
    intro a b
    unfold mergeLocal
    split
    · split
      · exact plain_pure _
      · split
        · exact plain_bind (Expr.plain_mkSelect _ _ _) fun _ ↦ plain_pure _
        · exact plain_pure _
    · exact plain_pure _
  have hsize : f.locals.size = g.locals.size := by
    simp only [Frame.sameShape, Bool.and_eq_true, beq_iff_eq] at h
    exact h.1.1.2
  have hlocals : Found ((f.locals.zip g.locals).mapM fun q ↦ mergeLocal inFirst q.1 q.2)
      fun r ↦ r.size = f.locals.size := by
    rw [Array.mapM_eq_mapM_toList, map_eq_pure_bind, Array.toList_zip]
    refine ends_bind (found_mapM_zip (g := fun _ ↦ ()) hsize fun q _ ↦
      (hlocal q.1 q.2).mono fun _ _ ↦ rfl) fun r hr ↦ ends_pure ?_
    simpa using congrArg List.length hr
  refine ends_bind hlocals fun r hr ↦ ends_pure ?_
  rw [Frame.shape, Frame.shape, hr]
  rfl

theorem found_mergeThread (inFirst : Expr) {t u : Thread} (h : t.sameShape u = true) :
    Found (mergeThread inFirst t u) fun r ↦ r.shape = t.shape := by
  simp only [Thread.sameShape, Bool.and_eq_true, beq_iff_eq, List.all_eq_true] at h
  obtain ⟨⟨-, hlength⟩, hframes⟩ := h
  refine ends_bind (found_mapM_zip (g := Frame.shape) hlength fun q hq ↦
    found_mergeFrame inFirst (hframes q hq)) fun r hr ↦ ends_pure ?_
  rw [Thread.shape, Thread.shape, hr]

theorem found_mergeContents (inFirst : Expr) {m : AddressSpace} {a b : ObjectState} (hm : m.objects.Sorted)
    (ha : ∃ o, (a.object.key, o) ∈ m.outline) :
    Found (mergeContents inFirst m a b) fun m' ↦ m'.outline = m.outline := by
  refine ends_bind (plain_differingBytes a b) fun differing _ ↦ ?_
  split
  · exact ends_pure rfl
  · refine AddressSpace.found_modify hm ha fun x ↦ ends_foldlM rfl fun q _ y hy ↦ ?_
    exact ends_bind (Expr.plain_mkSelect _ _ _) fun e _ ↦ (y.found_write8 _ _).mono fun _ h ↦ h.trans hy

theorem found_merge {t : State} (hkept : s.shape.Kept p n) :
    Found (s.merge t) fun r ↦ ∀ u, r = some u → u.id = s.id ∧ u.shape = s.shape := by
  unfold merge
  split
  · rename_i h
    simp only [mergeable, Bool.and_eq_true, beq_iff_eq, List.all_eq_true] at h
    obtain ⟨⟨⟨⟨⟨⟨-, hlength⟩, hthreads⟩, -⟩, -⟩, -⟩, -⟩ := h
    dsimp only
    refine ends_bind (Expr.plain_mkAll _) fun inFirst _ ↦ ends_bind (Expr.plain_mkAll _) fun inSecond _ ↦ ?_
    refine ends_bind (plain_foldlM fun c e ↦ c.plain_add e) fun common _ ↦ ?_
    refine ends_bind (Expr.plain_mkBinary .or _ _) fun either _ ↦
      ends_bind (common.plain_add _) fun constraints _ ↦ ?_
    refine ends_bind (found_mapM_zip (g := Thread.shape) hlength fun q hq ↦
      found_mergeThread inFirst (hthreads q hq)) fun threads hthreads ↦ ?_
    refine ends_bind (ends_foldlM (P := fun m : AddressSpace ↦ m.outline = s.memory.outline) rfl
      fun q hq m hm ↦ ?_) fun memory hmemory ↦ ends_pure ?_
    · obtain ⟨key, hmem⟩ := object_mem_outline (List.of_mem_zip hq).1
      have hkey := hkept.owned.keyed _ hmem
      refine (found_mergeContents inFirst ?_ ⟨q.1.object, ?_⟩).mono fun m' hm' ↦ hm'.trans hm
      · rw [← ascending_outline, hm]
        exact hkept.ascending
      · rw [hm, ← show key = q.1.object.key from hkey]
        exact hmem
    · rintro u ⟨⟩
      exact ⟨rfl, by rw [shape, shape, hthreads, hmemory]⟩
  · exact ends_pure nofun

end State

end Symex
