import Symex.Proofs.Odometer
import Symex.Proofs.Reads
import Symex.Proofs.RemadeTerms

namespace Symex

mutual

theorem Expr.hasRead_iff {r : NamedArray × Expr} (e : Expr) :
    e.HasRead r ↔ ∃ u i, .read u i ∈ e.nodes ∧ r = (u.root, i) := by
  match e with
  | .const v w => simp [Expr.HasRead, Expr.nodes]
  | .read u i =>
    simp only [Expr.HasRead, Expr.nodes, List.mem_cons, List.mem_append, u.hasRead_iff, i.hasRead_iff]
    grind
  | .select c t f =>
    simp only [Expr.HasRead, Expr.nodes, List.mem_cons, List.mem_append, c.hasRead_iff, t.hasRead_iff,
      f.hasRead_iff]
    grind
  | .concat l r' | .binary _ l r' | .compare _ l r' =>
    simp only [Expr.HasRead, Expr.nodes, List.mem_cons, List.mem_append, l.hasRead_iff, r'.hasRead_iff]
    grind
  | .extract x _ _ | .zext x _ | .sext x _ | .not x =>
    simp only [Expr.HasRead, Expr.nodes, List.mem_cons, x.hasRead_iff]
    grind

theorem Updates.hasRead_iff {r : NamedArray × Expr} (u : Updates) :
    u.HasRead r ↔ ∃ u' i, .read u' i ∈ u.nodes ∧ r = (u'.root, i) := by
  match u with
  | .base array => simp [Updates.HasRead, Updates.nodes]
  | .write i x older =>
    simp only [Updates.HasRead, Updates.nodes, List.mem_append, i.hasRead_iff, x.hasRead_iff,
      older.hasRead_iff]
    grind

end

namespace Expr

theorem nodup_foldl_arrays (rs : List (NamedArray × Expr)) {found : Array NamedArray}
    (h : found.toList.Nodup) :
    (rs.foldl (fun found r ↦
      if r.1.isSymbolic && !found.contains r.1 then found.push r.1 else found) found).toList.Nodup := by
  induction rs generalizing found with
  | nil => exact h
  | cons r rs ih =>
    rw [List.foldl_cons]
    refine ih ?_
    split
    · rename_i hr
      have hnew : r.1 ∉ found := by simpa using (Bool.and_eq_true_iff.1 hr).2
      rw [Array.toList_push, List.nodup_append]
      refine ⟨h, by simp, fun A hA B hB hAB ↦ hnew ?_⟩
      obtain rfl : B = r.1 := by simpa using hB
      exact hAB ▸ Array.mem_toList_iff.1 hA
    · exact h

theorem nodup_arrays (roots : List Expr) : (arrays roots).toList.Nodup := by
  unfold arrays
  rw [← Array.foldl_toList]
  exact nodup_foldl_arrays _ (by simp)

end Expr

namespace Assignment

variable {a b : Assignment} {A : NamedArray}

/-- The bytes without contents of an array are given the same values. For an array that is a table, these are
the bytes past its end. -/
def AgreesPast (a b : Assignment) (A : NamedArray) : Prop :=
  ∀ n, A.byte? n = none → a.byteAt A.name n = b.byteAt A.name n

theorem agreesPast_of_get?_eq (h : a.get? A.name = b.get? A.name) : a.AgreesPast b A := by
  intro n _
  rw [byteAt, byteAt, h]

theorem AgreesPast.byte?_eq (h : a.AgreesPast b A) (hfree : a.free = b.free) (n : Nat) :
    a.byte? A n = b.byte? A n := by
  cases hn : A.byte? n with
  | some x => rw [byte?, byte?, hn]
  | none => exact byte?_congr hfree (h n hn)

end Assignment

namespace Expr

open Assignment

theorem mem_arrays_iff {e : Expr} {A : NamedArray} :
    A ∈ arrays [e] ↔ A.isSymbolic ∧ ∃ u i, .read u i ∈ e.nodes ∧ u.root = A := by
  rw [mem_arrays]
  refine and_congr_right fun _ ↦ ⟨fun ⟨i, x, hx, hread⟩ ↦ ?_, fun ⟨u, i, hnode, hroot⟩ ↦ ?_⟩
  · obtain rfl : x = e := by simpa using hx
    obtain ⟨u, i, hnode, hr⟩ := x.hasRead_iff.1 hread
    exact ⟨u, i, hnode, (congrArg Prod.fst hr).symm⟩
  · exact ⟨i, e, by simp, e.hasRead_iff.2 ⟨u, i, hnode, by rw [hroot]⟩⟩

/-- Two assignments that treat free bytes alike and agree on the arrays that a term lists give it the same
value, if they agree on the tables it reads past their ends. The arrays that are listed are those without
contents that the reads at the nodes of the term go back to, each of them once. -/
theorem value_of_arrays (e : Expr) :
    (∀ a b : Assignment, a.free = b.free → (∀ A ∈ arrays [e], a.get? A.name = b.get? A.name) →
      (∀ u i, .read u i ∈ e.nodes → ¬u.root.isSymbolic → a.AgreesPast b u.root) →
        a.value? e = b.value? e) ∧
    (∀ A, A ∈ arrays [e] ↔ A.isSymbolic ∧ ∃ u i, .read u i ∈ e.nodes ∧ u.root = A) ∧
    (arrays [e]).toList.Nodup := by
  refine ⟨fun a b hfree harrays htables ↦ ?_, fun A ↦ mem_arrays_iff, nodup_arrays [e]⟩
  rw [value?_eq_eval, value?_eq_eval]
  refine eval_congr fun r hread n _ ↦ ?_
  obtain ⟨u, i, hnode, rfl⟩ := e.hasRead_iff.1 hread
  have hagree : a.AgreesPast b u.root := by
    by_cases hs : u.root.isSymbolic
    · exact agreesPast_of_get?_eq (harrays _ (mem_arrays_iff.2 ⟨hs, u, i, hnode, rfl⟩))
    · exact htables u i hnode hs
  exact hagree.byte?_eq hfree n

/-- A byte of one input is written to a table where another input says, and the table is read. What a third
input holds does not matter. -/
theorem value_of_arrays_written_table :
    let index : Expr := .zext (.read (.base (.symbolic "y" 1)) (.const 0 32)) 32
    let value : Expr := .read (.base (.symbolic "x" 1)) (.const 0 32)
    let e : Expr := .read (.write index value (.base (.constant "c" ⟨#[1]⟩))) (.const 0 32)
    let a : Assignment := (Assignment.mk true {}).bind "x" ⟨#[7]⟩
    (∀ A, A ∈ arrays [e] ↔ A = .symbolic "x" 1 ∨ A = .symbolic "y" 1) ∧ a.value? e = some 7 ∧
      (a.bind "z" ⟨#[1]⟩).value? e = some 7 := by
  intro index value e a
  obtain ⟨hvalue, hlisted, -⟩ := value_of_arrays e
  have hroots : ∀ u i, .read u i ∈ e.nodes →
      u.root = .constant "c" ⟨#[1]⟩ ∨ u.root = .symbolic "y" 1 ∨ u.root = .symbolic "x" 1 := by
    intro u i hnode
    simp only [e, index, value, nodes, Updates.nodes, List.mem_cons, List.mem_append, read.injEq, reduceCtorEq,
      List.not_mem_nil, false_or, or_false] at hnode
    obtain ⟨rfl, -⟩ | ⟨rfl, -⟩ | ⟨rfl, -⟩ := hnode
    · exact .inl rfl
    · exact .inr (.inl rfl)
    · exact .inr (.inr rfl)
  have hget : ∀ u i, .read u i ∈ e.nodes → (a.bind "z" ⟨#[1]⟩).get? u.root.name = a.get? u.root.name := by
    intro u i hnode
    rw [get?_bind, if_neg]
    obtain h | h | h := hroots u i hnode <;> rw [h] <;> decide
  refine ⟨fun A ↦ ?_, by decide, ?_⟩
  · rw [hlisted]
    constructor
    · rintro ⟨hs, u, i, hnode, rfl⟩
      obtain h | h | h := hroots u i hnode
      · rw [h] at hs
        cases hs
      · exact .inr h
      · exact .inl h
    · rintro (rfl | rfl)
      · exact ⟨rfl, .base (.symbolic "x" 1), .const 0 32, by simp [e, value, nodes, Updates.nodes], rfl⟩
      · exact ⟨rfl, .base (.symbolic "y" 1), .const 0 32, by simp [e, index, nodes, Updates.nodes], rfl⟩
  · refine (hvalue (a.bind "z" ⟨#[1]⟩) a rfl (fun A hA ↦ ?_) fun u i hnode _ ↦ ?_).trans (by decide)
    · obtain ⟨-, u, i, hnode, rfl⟩ := (hlisted A).1 hA
      exact hget u i hnode
    · exact agreesPast_of_get?_eq (hget u i hnode)

/-- A byte past the end of a table comes from whatever the assignment gives to the table's name, although a
term lists only the arrays without contents. -/
theorem value_not_of_arrays :
    ¬∀ (t : RawTerm) (e : Expr), t.build = .ok e → ∀ a b : Assignment, a.free = b.free →
      (∀ A ∈ arrays [e], a.get? A.name = b.get? A.name) → a.value? e = b.value? e := by
  intro h
  have hnone : ∀ A, A ∉ arrays [.read (.base (.constant "c" ⟨#[1]⟩)) (.const 5 32)] := by
    intro A hA
    obtain ⟨hs, u, i, hnode, rfl⟩ := mem_arrays_iff.1 hA
    obtain ⟨rfl, -⟩ : u = .base (.constant "c" ⟨#[1]⟩) ∧ i = .const 5 32 := by
      simpa [nodes, Updates.nodes] using hnode
    cases hs
  have heq := h (.read (.base (.constant "c" ⟨#[1]⟩)) (.constant 5 32))
    (.read (.base (.constant "c" ⟨#[1]⟩)) (.const 5 32)) rfl (Assignment.mk true {})
    ((Assignment.mk true {}).bind "c" ⟨#[0, 0, 0, 0, 0, 7]⟩) rfl fun A hA ↦ (hnone A hA).elim
  revert heq
  decide

end Expr

end Symex
