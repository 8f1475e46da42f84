import Symex.Expr.Reads
import Symex.Proofs.Refinement

namespace Symex

namespace Visit

def Marked (v : Visit) : Updates → Prop
  | .base _ => True
  | u@(.write _ _ _) => u ∈ v.updates

/-- The parts of `e` were met too, and its read is on record. -/
structure Closes (v : Visit) (e : Expr) : Prop where
  children : ∀ x ∈ e.children, x ∈ v.nodes
  read : ∀ u i, e = .read u i → (u.root, i) ∈ v.reads ∧ v.Marked u

/-- The parts of the newest write of `u` were met too, and the writes below are marked. -/
structure ClosesWrite (v : Visit) (u : Updates) : Prop where
  write : ∀ i x older, u = .write i x older → i ∈ v.nodes ∧ x ∈ v.nodes ∧ v.Marked older

/-- From `v` to `v'` nothing is lost, and whatever is new has its parts with it. -/
structure Extends (v v' : Visit) : Prop where
  nodes : ∀ e ∈ v.nodes, e ∈ v'.nodes
  updates : ∀ u ∈ v.updates, u ∈ v'.updates
  reads : ∀ r ∈ v.reads, r ∈ v'.reads
  closes : ∀ e ∈ v'.nodes, e ∈ v.nodes ∨ v'.Closes e
  closesWrite : ∀ u ∈ v'.updates, u ∈ v.updates ∨ v'.ClosesWrite u

variable {v v' v'' : Visit} {e : Expr} {u : Updates}

theorem Marked.mono (h : ∀ u ∈ v.updates, u ∈ v'.updates) (hu : v.Marked u) : v'.Marked u := by
  cases u with
  | base array => trivial
  | write i x older => exact h _ hu

theorem Closes.mono (h : Extends v v') (he : v.Closes e) : v'.Closes e :=
  ⟨fun x hx ↦ h.nodes x (he.children x hx),
    fun u i hui ↦ ⟨h.reads _ (he.read u i hui).1, (he.read u i hui).2.mono h.updates⟩⟩

theorem ClosesWrite.mono (h : Extends v v') (hu : v.ClosesWrite u) : v'.ClosesWrite u := by
  refine ⟨fun i x older heq ↦ ?_⟩
  obtain ⟨hi, hx, ho⟩ := hu.write i x older heq
  exact ⟨h.nodes _ hi, h.nodes _ hx, ho.mono h.updates⟩

namespace Extends

theorem refl (v : Visit) : Extends v v :=
  ⟨fun _ ↦ id, fun _ ↦ id, fun _ ↦ id, fun _ ↦ .inl, fun _ ↦ .inl⟩

theorem trans (h : Extends v v') (h' : Extends v' v'') : Extends v v'' where
  nodes e he := h'.nodes e (h.nodes e he)
  updates u hu := h'.updates u (h.updates u hu)
  reads r hr := h'.reads r (h.reads r hr)
  closes e he := by
    obtain he | he := h'.closes e he
    · obtain he | he := h.closes e he
      · exact .inl he
      · exact .inr (he.mono h')
    · exact .inr he
  closesWrite u hu := by
    obtain hu | hu := h'.closesWrite u hu
    · obtain hu | hu := h.closesWrite u hu
      · exact .inl hu
      · exact .inr (hu.mono h')
    · exact .inr hu

theorem of_insert (h : Extends { v with nodes := v.nodes.insert e } v') (he : v'.Closes e) :
    Extends v v' where
  nodes x hx := h.nodes x (by simp [hx])
  updates := h.updates
  reads := h.reads
  closes x hx := by
    obtain hx | hx := h.closes x hx
    · rw [Std.HashSet.mem_insert] at hx
      obtain hx | hx := hx
      · obtain rfl : e = x := by simpa using hx
        exact .inr he
      · exact .inl hx
    · exact .inr hx
  closesWrite := h.closesWrite

end Extends

end Visit

/-- The newest `n` sequences of writes that `u` goes through. -/
def Updates.newest : Updates → Nat → List Updates
  | .base _, _ => []
  | .write _ _ _, 0 => []
  | u@(.write _ _ older), n + 1 => u :: older.newest n

namespace Visit

variable {v v' v'' : Visit} {e : Expr} {u : Updates}

/-- What marking writes leaves behind, and how many of them were new. -/
structure Marks (v : Visit) (u : Updates) (v' : Visit) (fresh : Nat) : Prop where
  nodes : v'.nodes = v.nodes
  reads : v'.reads = v.reads
  updates : ∀ w, w ∈ v'.updates ↔ w ∈ v.updates ∨ w ∈ u.newest fresh
  marked : v'.Marked u
  older : ∀ i x o, .write i x o ∈ u.newest fresh → v'.Marked o

theorem markWrites_marks (v : Visit) (u : Updates) (n : Nat) :
    ∃ fresh, (v.markWrites u n).2 = n + fresh ∧ Marks v u (v.markWrites u n).1 fresh := by
  induction u generalizing v n with
  | base array =>
    exact ⟨0, rfl, rfl, rfl, by simp [markWrites, Updates.newest], trivial,
      by simp [Updates.newest]⟩
  | write i x o ih =>
    rw [markWrites]
    split
    · rename_i hc
      rw [Std.HashSet.contains_iff_mem] at hc
      exact ⟨0, rfl, rfl, rfl, by simp [Updates.newest], hc, by simp [Updates.newest]⟩
    · obtain ⟨fresh, hn, hm⟩ := ih { v with updates := v.updates.insert (.write i x o) } (n + 1)
      refine ⟨fresh + 1, by rw [hn]; omega, hm.nodes, hm.reads, fun w ↦ ?_, ?_, ?_⟩
      · rw [hm.updates, Updates.newest, Std.HashSet.mem_insert, List.mem_cons, beq_iff_eq,
          eq_comm (a := w)]
        grind
      · exact (hm.updates _).2 (.inl (by simp))
      · intro j y o' hw
        rw [Updates.newest, List.mem_cons] at hw
        obtain hw | hw := hw
        · obtain ⟨-, -, rfl⟩ := by simpa using hw
          exact hm.marked
        · exact hm.older j y o' hw

theorem Extends.of_marks {u : Updates} {i : Expr} {fresh : Nat}
    (hm : Marks { v with nodes := v.nodes.insert (.read u i), reads := v.reads.push (u.root, i) } u
      v' fresh)
    (h : Extends v' v'') (hi : i ∈ v''.nodes)
    (hw : ∀ j x o, .write j x o ∈ u.newest fresh → j ∈ v''.nodes ∧ x ∈ v''.nodes) :
    Extends v v'' ∧ .read u i ∈ v''.nodes := by
  have hread : (u.root, i) ∈ v''.reads := h.reads _ (by rw [hm.reads]; simp)
  refine ⟨⟨fun x hx ↦ ?_, fun w hwu ↦ ?_, fun r hr ↦ ?_, fun x hx ↦ ?_, fun w hwu ↦ ?_⟩, ?_⟩
  · exact h.nodes x (by rw [hm.nodes]; simp [hx])
  · exact h.updates w ((hm.updates w).2 (.inl hwu))
  · exact h.reads r (by rw [hm.reads]; simp [hr])
  · obtain hx | hx := h.closes x hx
    · rw [hm.nodes, Std.HashSet.mem_insert] at hx
      obtain hx | hx := hx
      · obtain rfl : .read u i = x := by simpa using hx
        refine .inr ⟨by simpa [Expr.children] using hi, fun u' i' heq ↦ ?_⟩
        obtain ⟨rfl, rfl⟩ := by simpa using heq
        exact ⟨hread, hm.marked.mono h.updates⟩
      · exact .inl hx
    · exact .inr hx
  · obtain hwu | hwu := h.closesWrite w hwu
    · obtain hwu | hwu := (hm.updates w).1 hwu
      · exact .inl hwu
      · refine .inr ⟨fun j x o heq ↦ ?_⟩
        subst heq
        obtain ⟨hj, hx⟩ := hw j x o hwu
        exact ⟨hj, hx, (hm.older j x o hwu).mono h.updates⟩
    · exact .inr hwu
  · exact h.nodes _ (by rw [hm.nodes]; simp)

theorem Extends.insert_node (h : Extends { v with nodes := v.nodes.insert e } v')
    (hread : ∀ u i, e ≠ .read u i) (hc : ∀ x ∈ e.children, x ∈ v'.nodes) :
    Extends v v' ∧ e ∈ v'.nodes :=
  ⟨h.of_insert ⟨hc, fun u i heq ↦ (hread u i heq).elim⟩, h.nodes e (by simp)⟩

end Visit

open Visit

mutual

theorem Expr.visit_extends (e : Expr) (v : Visit) :
    Extends v (e.visit v) ∧ e ∈ (e.visit v).nodes := by
  unfold Expr.visit
  split
  · rename_i hc
    exact ⟨.refl v, Std.HashSet.contains_iff_mem.1 hc⟩
  · match e with
    | .const n w => exact (Extends.refl _).insert_node (by simp) (by simp [Expr.children])
    | .read u i =>
      obtain ⟨fresh, hn, hm⟩ := markWrites_marks
        { v with nodes := v.nodes.insert (.read u i), reads := v.reads.push (u.root, i) } u 0
      obtain ⟨hi, hmem⟩ := i.visit_extends (markWrites _ u 0).1
      obtain ⟨hu, hparts⟩ := u.visit_extends fresh (i.visit (markWrites _ u 0).1)
      rw [Nat.zero_add] at hn
      simp only [hn]
      exact Extends.of_marks hm (hi.trans hu) (hu.nodes i hmem) hparts
    | .select c t f =>
      obtain ⟨hf, hfm⟩ := f.visit_extends { v with nodes := v.nodes.insert (.select c t f) }
      obtain ⟨ht, htm⟩ := t.visit_extends (f.visit _)
      obtain ⟨hc, hcm⟩ := c.visit_extends (t.visit (f.visit _))
      exact ((hf.trans ht).trans hc).insert_node (by simp)
        (by simpa [Expr.children] using ⟨hcm, hc.nodes t htm, hc.nodes f (ht.nodes f hfm)⟩)
    | .concat m l =>
      obtain ⟨hl, hlm⟩ := l.visit_extends { v with nodes := v.nodes.insert (.concat m l) }
      obtain ⟨hm, hmm⟩ := m.visit_extends (l.visit _)
      exact (hl.trans hm).insert_node (by simp)
        (by simpa [Expr.children] using ⟨hmm, hm.nodes l hlm⟩)
    | .extract x o w =>
      obtain ⟨hx, hxm⟩ := x.visit_extends { v with nodes := v.nodes.insert (.extract x o w) }
      exact hx.insert_node (by simp) (by simpa [Expr.children] using hxm)
    | .zext x w =>
      obtain ⟨hx, hxm⟩ := x.visit_extends { v with nodes := v.nodes.insert (.zext x w) }
      exact hx.insert_node (by simp) (by simpa [Expr.children] using hxm)
    | .sext x w =>
      obtain ⟨hx, hxm⟩ := x.visit_extends { v with nodes := v.nodes.insert (.sext x w) }
      exact hx.insert_node (by simp) (by simpa [Expr.children] using hxm)
    | .not x =>
      obtain ⟨hx, hxm⟩ := x.visit_extends { v with nodes := v.nodes.insert (.not x) }
      exact hx.insert_node (by simp) (by simpa [Expr.children] using hxm)
    | .binary op l r =>
      obtain ⟨hr, hrm⟩ := r.visit_extends { v with nodes := v.nodes.insert (.binary op l r) }
      obtain ⟨hl, hlm⟩ := l.visit_extends (r.visit _)
      exact (hr.trans hl).insert_node (by simp)
        (by simpa [Expr.children] using ⟨hlm, hl.nodes r hrm⟩)
    | .compare op l r =>
      obtain ⟨hr, hrm⟩ := r.visit_extends { v with nodes := v.nodes.insert (.compare op l r) }
      obtain ⟨hl, hlm⟩ := l.visit_extends (r.visit _)
      exact (hr.trans hl).insert_node (by simp)
        (by simpa [Expr.children] using ⟨hlm, hl.nodes r hrm⟩)

theorem Updates.visit_extends (u : Updates) (n : Nat) (v : Visit) :
    Extends v (u.visit n v) ∧ ∀ i x o, .write i x o ∈ u.newest n →
      i ∈ (u.visit n v).nodes ∧ x ∈ (u.visit n v).nodes := by
  unfold Updates.visit
  match u, n with
  | .base array, _ => exact ⟨.refl v, by simp [Updates.newest]⟩
  | .write i x o, 0 => exact ⟨.refl v, by simp [Updates.newest]⟩
  | .write i x o, n + 1 =>
    obtain ⟨ho, hparts⟩ := o.visit_extends n v
    obtain ⟨hx, hxm⟩ := x.visit_extends (o.visit n v)
    obtain ⟨hi, him⟩ := i.visit_extends (x.visit (o.visit n v))
    refine ⟨(ho.trans hx).trans hi, fun j y o' hw ↦ ?_⟩
    rw [Updates.newest, List.mem_cons] at hw
    obtain hw | hw := hw
    · obtain ⟨rfl, rfl, rfl⟩ := by simpa using hw
      exact ⟨him, hi.nodes _ hxm⟩
    · obtain ⟨hj, hy⟩ := hparts j y o' hw
      exact ⟨hi.nodes j (hx.nodes j hj), hi.nodes y (hx.nodes y hy)⟩

end

end Symex
