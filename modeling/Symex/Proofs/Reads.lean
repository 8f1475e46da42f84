import Symex.Proofs.Evaluation
import Symex.Proofs.Visits

namespace Symex

open Visit

mutual

/-- The term reads the array `r.1` at `r.2`, possibly in a write below another read. -/
def Expr.HasRead (r : NamedArray × Expr) : Expr → Prop
  | .const _ _ => False
  | .read u i => r = (u.root, i) ∨ u.HasRead r ∨ i.HasRead r
  | .select c t f => c.HasRead r ∨ t.HasRead r ∨ f.HasRead r
  | .concat m l => m.HasRead r ∨ l.HasRead r
  | .extract x _ _ | .zext x _ | .sext x _ | .not x => x.HasRead r
  | .binary _ l r' | .compare _ l r' => l.HasRead r ∨ r'.HasRead r

def Updates.HasRead (r : NamedArray × Expr) : Updates → Prop
  | .base _ => False
  | .write i x older => i.HasRead r ∨ x.HasRead r ∨ older.HasRead r

end

mutual

theorem Expr.HasRead.mem_reads {r : NamedArray × Expr} {v : Visit} (hv : Extends {} v) {e : Expr}
    (hr : e.HasRead r) (he : e ∈ v.nodes) : r ∈ v.reads := by
  have hc : v.Closes e := by simpa using hv.closes e he
  match e with
  | .const n w => exact hr.elim
  | .read u i =>
    obtain ⟨hread, hmarked⟩ := hc.read u i rfl
    obtain rfl | hr | hr := hr
    · exact hread
    · exact hr.mem_reads hv hmarked
    · exact hr.mem_reads hv (hc.children i (by simp [Expr.children]))
  | .select c t f =>
    obtain hr | hr | hr := hr
    · exact hr.mem_reads hv (hc.children c (by simp [Expr.children]))
    · exact hr.mem_reads hv (hc.children t (by simp [Expr.children]))
    · exact hr.mem_reads hv (hc.children f (by simp [Expr.children]))
  | .concat l r | .binary _ l r | .compare _ l r =>
    obtain hr | hr := hr
    · exact hr.mem_reads hv (hc.children l (by simp [Expr.children]))
    · exact hr.mem_reads hv (hc.children r (by simp [Expr.children]))
  | .extract x _ _ | .zext x _ | .sext x _ | .not x =>
    exact Expr.HasRead.mem_reads hv (e := x) hr (hc.children x (by simp [Expr.children]))

theorem Updates.HasRead.mem_reads {r : NamedArray × Expr} {v : Visit} (hv : Extends {} v)
    {u : Updates} (hr : u.HasRead r) (hu : v.Marked u) : r ∈ v.reads := by
  match u with
  | .base array => exact hr.elim
  | .write i x o =>
    have hc : v.ClosesWrite (.write i x o) := by simpa using hv.closesWrite _ hu
    obtain ⟨hi, hx, ho⟩ := hc.write i x o rfl
    obtain hr | hr | hr := hr
    · exact hr.mem_reads hv hi
    · exact hr.mem_reads hv hx
    · exact hr.mem_reads hv ho

end

mutual

theorem Expr.hasRead_of_mem_visit {r : NamedArray × Expr} {e : Expr} {v : Visit}
    (hr : r ∈ (e.visit v).reads) : r ∈ v.reads ∨ e.HasRead r := by
  unfold Expr.visit at hr
  split at hr
  · exact .inl hr
  · match e with
    | .const n w => exact .inl hr
    | .read u i =>
      obtain ⟨fresh, hn, hm⟩ := markWrites_marks
        { v with nodes := v.nodes.insert (.read u i), reads := v.reads.push (u.root, i) } u 0
      obtain hr | hr := Updates.hasRead_of_mem_visit hr
      · obtain hr | hr := Expr.hasRead_of_mem_visit hr
        · rw [hm.reads, Array.mem_push] at hr
          obtain hr | hr := hr
          · exact .inl hr
          · exact .inr (.inl hr)
        · exact .inr (.inr (.inr hr))
      · exact .inr (.inr (.inl hr))
    | .select c t f =>
      obtain hr | hr := Expr.hasRead_of_mem_visit hr
      · obtain hr | hr := Expr.hasRead_of_mem_visit hr
        · obtain hr | hr := Expr.hasRead_of_mem_visit hr
          · exact .inl hr
          · exact .inr (.inr (.inr hr))
        · exact .inr (.inr (.inl hr))
      · exact .inr (.inl hr)
    | .concat l r | .binary _ l r | .compare _ l r =>
      obtain hr | hr := Expr.hasRead_of_mem_visit hr
      · obtain hr | hr := Expr.hasRead_of_mem_visit hr
        · exact .inl hr
        · exact .inr (.inr hr)
      · exact .inr (.inl hr)
    | .extract x _ _ | .zext x _ | .sext x _ | .not x =>
      obtain hr | hr := Expr.hasRead_of_mem_visit hr
      · exact .inl hr
      · exact .inr hr

theorem Updates.hasRead_of_mem_visit {r : NamedArray × Expr} {u : Updates} {n : Nat} {v : Visit}
    (hr : r ∈ (u.visit n v).reads) : r ∈ v.reads ∨ u.HasRead r := by
  unfold Updates.visit at hr
  match u, n with
  | .base array, _ => exact .inl hr
  | .write i x o, 0 => exact .inl hr
  | .write i x o, n + 1 =>
    obtain hr | hr := Expr.hasRead_of_mem_visit hr
    · obtain hr | hr := Expr.hasRead_of_mem_visit hr
      · obtain hr | hr := Updates.hasRead_of_mem_visit hr
        · exact .inl hr
        · exact .inr (.inr (.inr hr))
      · exact .inr (.inr (.inl hr))
    · exact .inr (.inl hr)

end

namespace Expr

theorem foldr_visit_extends (roots : List Expr) :
    Extends {} (roots.foldr visit {}) ∧ ∀ e ∈ roots, e ∈ (roots.foldr visit {}).nodes := by
  induction roots with
  | nil => exact ⟨.refl _, by simp⟩
  | cons e roots ih =>
    obtain ⟨h, he⟩ := e.visit_extends (roots.foldr visit {})
    exact ⟨ih.1.trans h, List.forall_mem_cons.2 ⟨he, fun x hx ↦ h.nodes x (ih.2 x hx)⟩⟩

theorem mem_reads {roots : List Expr} {r : NamedArray × Expr} :
    r ∈ reads roots ↔ ∃ e ∈ roots, e.HasRead r := by
  constructor
  · unfold reads
    induction roots with
    | nil => simp
    | cons e roots ih =>
      intro hr
      obtain hr | hr := hasRead_of_mem_visit hr
      · obtain ⟨x, hx, hr⟩ := ih hr
        exact ⟨x, by simp [hx], hr⟩
      · exact ⟨e, by simp, hr⟩
  · rintro ⟨e, he, hr⟩
    obtain ⟨hext, hmem⟩ := foldr_visit_extends roots
    exact hr.mem_reads hext (hmem e he)

theorem mem_foldl_arrays {A : NamedArray} (rs : List (NamedArray × Expr))
    (found : Array NamedArray) :
    A ∈ rs.foldl (fun found r ↦
        if r.1.isSymbolic && !found.contains r.1 then found.push r.1 else found) found ↔
      A ∈ found ∨ A.isSymbolic ∧ ∃ i, (A, i) ∈ rs := by
  induction rs generalizing found with
  | nil => simp
  | cons r rs ih =>
    rw [List.foldl_cons, ih]
    simp only [List.mem_cons]
    by_cases hr : r.1.isSymbolic && !found.contains r.1
    · grind
    · grind

theorem mem_arrays {roots : List Expr} {A : NamedArray} :
    A ∈ arrays roots ↔ A.isSymbolic ∧ ∃ i, ∃ e ∈ roots, e.HasRead (A, i) := by
  unfold arrays
  rw [← Array.foldl_toList]
  refine (mem_foldl_arrays _ _).trans ?_
  simp [mem_reads]

end Expr

namespace Assignment

/-- The bytes that `r` may stand for are the same under `a` and `b`. -/
def AgreeAt (a b : Assignment) (r : NamedArray × Expr) : Prop :=
  ∀ n, a.eval r.2 = some n → a.byte? r.1 n = b.byte? r.1 n

mutual

theorem eval_congr {a b : Assignment} {e : Expr} (h : ∀ r, e.HasRead r → a.AgreeAt b r) :
    a.eval e = b.eval e := by
  match e with
  | .const n w => rw [eval_const, eval_const]
  | .read u i =>
    have hi : a.eval i = b.eval i := eval_congr fun r hr ↦ h r (.inr (.inr hr))
    rw [eval, eval, ← hi]
    cases hn : a.eval i with
    | none => rfl
    | some n =>
      exact evalRead_congr (h (u.root, i) (.inl rfl) n hn) fun r hr ↦ h r (.inr (.inl hr))
  | .select c t f =>
    have hc : a.eval c = b.eval c := eval_congr fun r hr ↦ h r (.inl hr)
    have ht : a.eval t = b.eval t := eval_congr fun r hr ↦ h r (.inr (.inl hr))
    have hf : a.eval f = b.eval f := eval_congr fun r hr ↦ h r (.inr (.inr hr))
    rw [eval, eval, hc, ht, hf]
  | .concat l r | .binary _ l r | .compare _ l r =>
    have hl : a.eval l = b.eval l := eval_congr fun r hr ↦ h r (.inl hr)
    have hr : a.eval r = b.eval r := eval_congr fun r hr ↦ h r (.inr hr)
    rw [eval, eval, hl, hr]
  | .extract x _ _ | .zext x _ | .sext x _ | .not x =>
    have hx : a.eval x = b.eval x := eval_congr fun r hr ↦ h r hr
    rw [eval, eval, hx]

theorem evalRead_congr {a b : Assignment} {u : Updates} {n : Nat}
    (hroot : a.byte? u.root n = b.byte? u.root n) (h : ∀ r, u.HasRead r → a.AgreeAt b r) :
    a.evalRead u n = b.evalRead u n := by
  match u with
  | .base array =>
    rw [evalRead_base, evalRead_base]
    exact congrArg _ hroot
  | .write i x o =>
    have hi : a.eval i = b.eval i := eval_congr fun r hr ↦ h r (.inl hr)
    have hx : a.eval x = b.eval x := eval_congr fun r hr ↦ h r (.inr (.inl hr))
    have ho : a.evalRead o n = b.evalRead o n :=
      evalRead_congr hroot fun r hr ↦ h r (.inr (.inr hr))
    rw [evalRead, evalRead, hi, hx, ho]

end

end Assignment

end Symex
