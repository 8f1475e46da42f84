import Mathlib.Data.List.Nodup
import Symex.Proofs.Reads
import Symex.Solver.Enumeration

namespace Symex

def NamesApart (arrays : List NamedArray) : Prop :=
  ∀ A ∈ arrays, ∀ B ∈ arrays, A.isSymbolic → A.name = B.name → A = B

theorem NamesApart.mono {as bs : List NamedArray} (h : NamesApart as) (hs : ∀ A ∈ bs, A ∈ as) :
    NamesApart bs :=
  fun A hA B hB ↦ h A (hs A hA) B (hs B hB)

namespace Enumeration

theorem mem_connected (names : Std.HashSet String) (pending : List (Expr × List String))
    (p : Expr × List String) :
    (p ∈ (connected names pending).1 ↔ p ∈ pending ∧ ∃ n ∈ p.2, n ∈ names) ∧
      (p ∈ (connected names pending).2 ↔ p ∈ pending ∧ ∀ n ∈ p.2, n ∉ names) := by
  simp [connected, List.partition_eq_filter_filter]

theorem mem_foldl_insert {ns : List String} {names : Std.HashSet String} {n : String} :
    n ∈ ns.foldl (·.insert ·) names ↔ n ∈ names ∨ n ∈ ns := by
  induction ns generalizing names with
  | nil => simp
  | cons m ns ih =>
    rw [List.foldl_cons, ih, Std.HashSet.mem_insert, List.mem_cons, beq_iff_eq, eq_comm (a := m)]
    grind

theorem mem_foldl_foldl_insert {ps : List (Expr × List String)} {names : Std.HashSet String}
    {n : String} :
    n ∈ ps.foldl (fun names p ↦ p.2.foldl (·.insert ·) names) names ↔
      n ∈ names ∨ ∃ p ∈ ps, n ∈ p.2 := by
  induction ps generalizing names with
  | nil => simp
  | cons p ps ih =>
    rw [List.foldl_cons, ih, mem_foldl_insert]
    grind

/-- The names that connect `kept` with a question: whatever was dropped uses none of them. -/
structure Slice (names : Std.HashSet String) (pending : List (Expr × List String))
    (kept : List Expr) (N : String → Prop) : Prop where
  start : ∀ n ∈ names, N n
  mem : ∀ c ∈ kept, ∃ p ∈ pending, p.1 = c ∧ p.2 ≠ [] ∧ ∀ n ∈ p.2, N n
  split : ∀ p ∈ pending, p.1 ∈ kept ∨ ∀ n ∈ p.2, ¬N n

theorem exists_slice (names : Std.HashSet String) (pending : List (Expr × List String)) :
    ∃ N, Slice names pending (relevantTo names pending) N := by
  fun_induction relevantTo names pending with
  | case1 names pending rest h =>
    refine ⟨(· ∈ names), fun _ ↦ id, by simp, fun p hp ↦ .inr fun n hn hmem ↦ ?_⟩
    have : p ∈ (connected names pending).1 := (mem_connected names pending p).1.2 ⟨hp, n, hn, hmem⟩
    simp [h] at this
  | case2 names pending first others rest h _ names' ih =>
    obtain ⟨N, hN⟩ := ih
    have hnames' : ∀ n, n ∈ names' ↔ n ∈ names ∨ ∃ p ∈ first :: others, n ∈ p.2 :=
      fun n ↦ mem_foldl_foldl_insert
    have hfirst : ∀ p, p ∈ first :: others ↔ p ∈ pending ∧ ∃ n ∈ p.2, n ∈ names := by
      intro p
      rw [← (mem_connected names pending p).1, h]
    have hrest : ∀ p, p ∈ rest ↔ p ∈ pending ∧ ∀ n ∈ p.2, n ∉ names := by
      intro p
      rw [← (mem_connected names pending p).2, h]
    refine ⟨N, fun n hn ↦ hN.start n ((hnames' n).2 (.inl hn)), fun c hc ↦ ?_, fun p hp ↦ ?_⟩
    · rw [← List.map_cons (f := Prod.fst), List.mem_append, List.mem_map] at hc
      obtain ⟨p, hp, rfl⟩ | hc := hc
      · obtain ⟨hmem, n, hn, -⟩ := (hfirst p).1 hp
        exact ⟨p, hmem, rfl, List.ne_nil_of_mem hn,
          fun n hn ↦ hN.start n ((hnames' n).2 (.inr ⟨p, hp, hn⟩))⟩
      · obtain ⟨p, hp, hpc⟩ := hN.mem c hc
        exact ⟨p, ((hrest p).1 hp).1, hpc⟩
    · rw [← List.map_cons (f := Prod.fst), List.mem_append, List.mem_map]
      by_cases hc : ∃ n ∈ p.2, n ∈ names
      · exact .inl (.inl ⟨p, (hfirst p).2 ⟨hp, hc⟩, rfl⟩)
      · obtain hk | hk := hN.split p ((hrest p).2 ⟨hp, by simpa using hc⟩)
        · exact .inl (.inr hk)
        · exact .inr hk

theorem mem_names {roots : List Expr} {n : String} :
    n ∈ (Expr.arrays roots).toList.map (·.name) ↔
      ∃ A i, A.isSymbolic ∧ A.name = n ∧ ∃ e ∈ roots, e.HasRead (A, i) := by
  simp only [List.mem_map, Array.mem_toList_iff, Expr.mem_arrays]
  grind

/-- Constraints are kept or dropped so that those kept, the question and `arrays` share no input
with those dropped. -/
structure Relevant (constraints : List Expr) (e : Expr) (arrays : List NamedArray)
    (kept : List Expr) (N : String → Prop) : Prop where
  subset : ∀ c ∈ kept, c ∈ constraints
  input : ∀ c ∈ kept, Expr.arrays [c] ≠ #[]
  arrays : ∀ A ∈ arrays, N A.name
  used : ∀ c ∈ kept ++ [e], ∀ A i, c.HasRead (A, i) → A.isSymbolic → N A.name
  split : ∀ c ∈ constraints, c ∈ kept ∨ ∀ A i, c.HasRead (A, i) → A.isSymbolic → ¬N A.name

theorem exists_relevant (constraints : List Expr) (e : Expr) (arrays : List NamedArray) :
    ∃ N, Relevant constraints e arrays (relevant constraints e arrays) N := by
  have hnames : ∀ (as : List NamedArray) (names : Std.HashSet String) (n : String),
      n ∈ as.foldl (fun s a ↦ s.insert a.name) names ↔ n ∈ names ∨ ∃ A ∈ as, A.name = n := by
    intro as
    induction as with
    | nil => simp
    | cons A as ih =>
      intro names n
      rw [List.foldl_cons, ih, Std.HashSet.mem_insert, beq_iff_eq]
      grind
  unfold relevant
  obtain ⟨N, hN⟩ := exists_slice
    (((Expr.arrays [e]).toList ++ arrays).foldl (fun s a ↦ s.insert a.name)
      (∅ : Std.HashSet String))
    (constraints.map fun c ↦ (c, (Expr.arrays [c]).toList.map (·.name)))
  have hstart : ∀ A ∈ (Expr.arrays [e]).toList ++ arrays, N A.name :=
    fun A hA ↦ hN.start _ ((hnames _ _ _).2 (.inr ⟨A, hA, rfl⟩))
  refine ⟨N, fun c hc ↦ ?_, fun c hc ↦ ?_, fun A hA ↦ hstart A (by simp [hA]), fun c hc A i hr hs ↦ ?_,
    fun c hc ↦ ?_⟩
  · obtain ⟨p, hp, rfl, -⟩ := hN.mem c hc
    obtain ⟨d, hd, rfl⟩ := List.mem_map.1 hp
    exact hd
  · obtain ⟨p, hp, rfl, hne, -⟩ := hN.mem c hc
    obtain ⟨d, hd, rfl⟩ := List.mem_map.1 hp
    simpa using hne
  · rw [List.mem_append, List.mem_singleton] at hc
    obtain hc | rfl := hc
    · obtain ⟨p, hp, rfl, -, hused⟩ := hN.mem c hc
      obtain ⟨c, hc, rfl⟩ := List.mem_map.1 hp
      exact hused _ (mem_names.2 ⟨A, i, hs, rfl, c, by simp, hr⟩)
    · refine hstart A (List.mem_append_left _ ?_)
      rw [Array.mem_toList_iff, Expr.mem_arrays]
      exact ⟨hs, i, c, by simp, hr⟩
  · obtain hk | hk := hN.split _ (List.mem_map.2 ⟨c, hc, rfl⟩)
    · exact .inl hk
    · exact .inr fun A i hr hs ↦ hk _ (mem_names.2 ⟨A, i, hs, rfl, c, by simp, hr⟩)

/-! ## The bytes that are read -/

namespace Extent

theorem mem_positions {x : Extent} {n : Nat} : n ∈ x.positions ↔ n < x.span ∨ n ∈ x.indices := by
  simp only [positions, beyond, List.mem_append, List.mem_range, List.mem_filter,
    Std.TreeSet.mem_toList, decide_eq_true_eq]
  grind

theorem nodup_positions (x : Extent) : x.positions.Nodup := by
  have hbeyond : x.beyond.Nodup := by
    refine List.Nodup.filter _ ?_
    simpa [List.Nodup] using x.indices.distinct_toList
  refine List.nodup_append'.2 ⟨List.nodup_range, hbeyond, ?_⟩
  intro n hn hm
  simp only [List.mem_range, beyond, List.mem_filter, decide_eq_true_eq] at hn hm
  omega

@[simp] theorem array_add (x : Extent) (A : NamedArray) (index : Expr) :
    (x.add A index).array = x.array := by
  unfold add
  split
  · split
    · rfl
    · rfl
  · rfl

/-- The extent has the bytes that a read of `A` at `index` can touch. -/
def Covers (x : Extent) (A : NamedArray) (index : Expr) : Prop :=
  ∀ n < A.size, (∀ i, index.value? = some i → i = n) → n ∈ x.positions

/-- The bytes of the extent are bytes of its array. -/
def InBounds (x : Extent) : Prop := ∀ n ∈ x.positions, n < x.array.size

theorem covers_add (x : Extent) (A : NamedArray) (index : Expr) : (x.add A index).Covers A index := by
  intro n hn hi
  rw [mem_positions]
  unfold add
  split
  · rename_i i hv
    obtain rfl := hi i hv
    simp [hn]
  · exact .inl (by simp; omega)

theorem Covers.add {x : Extent} {A B : NamedArray} {index index' : Expr} (h : x.Covers A index) :
    (x.add B index').Covers A index := by
  intro n hn hi
  have hp := h n hn hi
  rw [mem_positions] at hp ⊢
  unfold Extent.add
  split
  · split
    · simp only [Std.TreeSet.mem_insert]
      grind
    · exact hp
  · grind

theorem InBounds.add {x : Extent} (h : x.InBounds) (index : Expr) :
    (x.add x.array index).InBounds := by
  intro n hn
  have hold : n < x.span ∨ n ∈ x.indices → n < x.array.size := fun hp ↦ h n (mem_positions.2 hp)
  rw [mem_positions] at hn
  rw [array_add]
  unfold Extent.add at hn
  split at hn
  · split at hn
    · simp only [Std.TreeSet.mem_insert, Std.compare_eq_iff_eq] at hn
      grind
    · exact hold hn
  · grind

end Extent

/-- What `found` says about the inputs among the reads `rs`. -/
structure Collected (rs : List (NamedArray × Expr)) (found : Std.TreeMap String Extent) : Prop where
  name_eq : ∀ {name : String} {x : Extent}, found[name]? = some x → x.array.name = name
  source : ∀ {name : String} {x : Extent}, found[name]? = some x →
    x.array.isSymbolic ∧ ∃ i, (x.array, i) ∈ rs
  inBounds : ∀ {name : String} {x : Extent}, found[name]? = some x → x.InBounds
  covers : ∀ {A : NamedArray} {i : Expr}, (A, i) ∈ rs → A.isSymbolic →
    ∃ x, found[A.name]? = some x ∧ x.Covers A i

def collect (found : Std.TreeMap String Extent) (r : NamedArray × Expr) :
    Std.TreeMap String Extent :=
  if r.1.isSymbolic then
    found.insert r.1.name ((found.getD r.1.name ⟨r.1, 0, {}⟩).add r.1 r.2)
  else found

theorem extents_eq (exprs : List Expr) :
    extents exprs = (((Expr.reads exprs).toList.foldl collect {}).toList.map (·.2)) := by
  rw [extents, ← Array.foldl_toList]
  rfl

theorem Collected.empty : Collected [] {} :=
  ⟨by simp, by simp, by simp, by simp⟩

theorem Collected.getD {rs : List (NamedArray × Expr)} {found : Std.TreeMap String Extent}
    {A : NamedArray} {i : Expr} (hn : NamesApart (((A, i) :: rs).map (·.1))) (hs : A.isSymbolic)
    (h : Collected rs found) :
    (found.getD A.name ⟨A, 0, {}⟩).array = A ∧ (found.getD A.name ⟨A, 0, {}⟩).InBounds := by
  rw [Std.TreeMap.getD_eq_getD_getElem?]
  cases hx : found[A.name]? with
  | none => exact ⟨rfl, by simp [Extent.InBounds, Extent.mem_positions]⟩
  | some x =>
    obtain ⟨-, j, hj⟩ := h.source hx
    refine ⟨?_, h.inBounds hx⟩
    exact (hn A (by simp) x.array (List.mem_map.2 ⟨(x.array, j), by simp [hj], rfl⟩) hs
      (h.name_eq hx).symm).symm

theorem Collected.collect {rs : List (NamedArray × Expr)} {found : Std.TreeMap String Extent}
    {r : NamedArray × Expr} (hn : NamesApart ((r :: rs).map (·.1))) (h : Collected rs found) :
    Collected (r :: rs) (collect found r) := by
  obtain ⟨A, i⟩ := r
  unfold Enumeration.collect
  split
  · rename_i hs
    obtain ⟨harray, hbounds⟩ := h.getD hn hs
    have hnew : ((found.getD A.name ⟨A, 0, {}⟩).add A i).array = A := by
      rw [Extent.array_add, harray]
    refine ⟨fun hx ↦ ?_, fun hx ↦ ?_, fun hx ↦ ?_, fun {B j} hmem hsym ↦ ?_⟩
    · rw [Std.TreeMap.getElem?_insert] at hx
      split at hx
      · rename_i heq
        rw [← Option.some.inj hx, hnew]
        exact Std.compare_eq_iff_eq.1 heq
      · exact h.name_eq hx
    · rw [Std.TreeMap.getElem?_insert] at hx
      split at hx
      · rw [← Option.some.inj hx, hnew]
        exact ⟨hs, i, by simp⟩
      · obtain ⟨hsx, j, hj⟩ := h.source hx
        exact ⟨hsx, j, by simp [hj]⟩
    · rw [Std.TreeMap.getElem?_insert] at hx
      split at hx
      · rw [← Option.some.inj hx]
        simpa only [harray] using hbounds.add i
      · exact h.inBounds hx
    · rw [Std.TreeMap.getElem?_insert]
      rw [List.mem_cons] at hmem
      obtain hmem | hmem := hmem
      · obtain ⟨rfl, rfl⟩ := by simpa using hmem
        exact ⟨_, if_pos Std.ReflCmp.compare_self, Extent.covers_add _ _ _⟩
      · obtain ⟨x, hx, hc⟩ := h.covers hmem hsym
        split
        · rename_i heq
          rw [← Std.compare_eq_iff_eq.1 heq] at hx
          rw [Std.TreeMap.getD_eq_getD_getElem?, hx]
          exact ⟨_, rfl, hc.add⟩
        · exact ⟨x, hx, hc⟩
  · rename_i hs
    refine ⟨h.name_eq, fun hx ↦ ?_, h.inBounds, fun hmem hsym ↦ ?_⟩
    · obtain ⟨hsx, j, hj⟩ := h.source hx
      exact ⟨hsx, j, by simp [hj]⟩
    · rw [List.mem_cons] at hmem
      obtain hmem | hmem := hmem
      · obtain ⟨rfl, rfl⟩ := by simpa using hmem
        exact (hs hsym).elim
      · exact h.covers hmem hsym

theorem Collected.foldl {done : List (NamedArray × Expr)} {found : Std.TreeMap String Extent}
    (h : Collected done found) (rs : List (NamedArray × Expr))
    (hn : NamesApart ((rs.reverse ++ done).map (·.1))) :
    Collected (rs.reverse ++ done) (rs.foldl Enumeration.collect found) := by
  induction rs generalizing done found with
  | nil => exact h
  | cons r rs ih =>
    rw [List.reverse_cons, List.append_assoc] at hn ⊢
    exact ih (h.collect (hn.mono (by simp; grind))) hn

/-- The extents of `exprs` are those of the inputs that they read, one for each. -/
structure Spans (exprs : List Expr) (xs : List Extent) : Prop where
  source : ∀ x ∈ xs, x.array.isSymbolic ∧ ∃ i, ∃ e ∈ exprs, e.HasRead (x.array, i)
  inBounds : ∀ x ∈ xs, x.InBounds
  covers : ∀ {A i}, A.isSymbolic → (∃ e ∈ exprs, e.HasRead (A, i)) →
    ∃ x ∈ xs, x.array.name = A.name ∧ x.Covers A i
  distinct : xs.Pairwise fun x y ↦ x.array.name ≠ y.array.name

theorem spans_extents {exprs : List Expr}
    (hn : NamesApart ((Expr.reads exprs).toList.map (·.1))) : Spans exprs (extents exprs) := by
  have hc := Collected.empty.foldl (Expr.reads exprs).toList (hn.mono (by simp))
  have hrs : ∀ r, r ∈ (Expr.reads exprs).toList.reverse ++ [] ↔ ∃ e ∈ exprs, e.HasRead r := by
    intro r
    rw [List.append_nil, List.mem_reverse, Array.mem_toList_iff, Expr.mem_reads]
  rw [extents_eq]
  have hmem : ∀ {x}, x ∈ ((Expr.reads exprs).toList.foldl collect {}).toList.map (·.2) ↔
      ∃ name : String, ((Expr.reads exprs).toList.foldl collect {})[name]? = some x := by
    intro x
    simp [Std.TreeMap.mem_toList_iff_getElem?_eq_some]
  refine ⟨fun x hx ↦ ?_, fun x hx ↦ ?_, fun hs hr ↦ ?_, ?_⟩
  · obtain ⟨name, hx⟩ := hmem.1 hx
    obtain ⟨hs, i, hi⟩ := hc.source hx
    exact ⟨hs, i, (hrs _).1 hi⟩
  · obtain ⟨name, hx⟩ := hmem.1 hx
    exact hc.inBounds hx
  · obtain ⟨x, hx, hcov⟩ := hc.covers ((hrs _).2 hr) hs
    exact ⟨x, hmem.2 ⟨_, hx⟩, hc.name_eq hx, hcov⟩
  · rw [List.pairwise_map]
    refine List.Pairwise.imp_of_mem ?_ Std.TreeMap.distinct_keys_toList
    intro p q hp hq hne heq
    rw [Std.TreeMap.mem_toList_iff_getElem?_eq_some] at hp hq
    rw [hc.name_eq hp, hc.name_eq hq] at heq
    exact hne (Std.compare_eq_iff_eq.2 heq)

end Enumeration

end Symex
