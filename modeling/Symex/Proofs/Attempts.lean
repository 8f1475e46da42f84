import Symex.Proofs.Odometer
import Symex.Proofs.Slices

namespace Symex

theorem Bytes.data_zeros (n : Nat) : (zeros n).data = Array.replicate n 0 := by
  induction n using Nat.strongRecOn with
  | ind n ih =>
    unfold zeros
    split
    · simp_all
    · rename_i h
      have hhalf := ih (n / 2) (by omega)
      dsimp only
      split
      · rw [ByteArray.data_append, hhalf, Array.replicate_append_replicate]
        congr 1
        omega
      · rw [ByteArray.data_push, ByteArray.data_append, hhalf, Array.replicate_append_replicate,
          ← Array.replicate_succ]
        congr 1
        omega

theorem Bytes.getElem?_zeros {n i : Nat} {b : UInt8} (h : (zeros n)[i]? = some b) : b = 0 := by
  rw [getElem?_eq_data, data_zeros] at h
  simp only [Array.getElem?_replicate] at h
  grind

namespace Assignment

/-- The assignment gives each input among `arrays` as many bytes as it has, and nothing to anything
else. Bytes past the end count as zero. -/
structure Fits (a : Assignment) (arrays : List NamedArray) : Prop where
  free : a.free
  bound : ∀ A ∈ arrays, A.isSymbolic → ∃ bytes, a.get? A.name = some bytes ∧ bytes.size = A.size
  only : ∀ {name bytes}, a.get? name = some bytes → ∃ A ∈ arrays, A.isSymbolic ∧ A.name = name

variable {a b : Assignment} {arrays : List NamedArray} {A : NamedArray}

theorem Fits.get?_eq_none (h : a.Fits arrays) (hn : NamesApart (A :: arrays))
    (hA : ¬A.isSymbolic) : a.get? A.name = none := by
  rw [Option.eq_none_iff_forall_ne_some]
  intro bytes hget
  obtain ⟨B, hB, hs, hname⟩ := h.only hget
  have hBA := hn B (by simp [hB]) A (by simp) hs hname
  exact hA (hBA ▸ hs)

theorem eval_congr_get? (hf : a.free = b.free) {e : Expr}
    (h : ∀ A i, e.HasRead (A, i) → a.get? A.name = b.get? A.name) : a.eval e = b.eval e := by
  refine eval_congr fun r hr n _ ↦ byte?_congr hf ?_
  rw [byteAt, byteAt, h r.1 r.2 hr]

end Assignment

namespace Enumeration

open Assignment

/-- Where a search starts: all bytes of the inputs are zero. -/
def startOf (xs : List Extent) : Assignment :=
  xs.foldl (fun a x ↦ a.bind x.array.name (Bytes.zeros x.array.size)) { free := true }

def positionsOf (xs : List Extent) : List (String × Nat) :=
  xs.flatMap fun x ↦ x.positions.map fun i ↦ (x.array.name, i)

theorem free_foldl_bind (f : Extent → ByteArray) (xs : List Extent) (a : Assignment) :
    (xs.foldl (fun a x ↦ a.bind x.array.name (f x)) a).free = a.free := by
  induction xs generalizing a with
  | nil => rfl
  | cons x xs ih => exact ih (a.bind x.array.name (f x))

theorem get?_foldl_bind_of_ne (f : Extent → ByteArray) {xs : List Extent} {a : Assignment}
    {name : String} (h : ∀ x ∈ xs, x.array.name ≠ name) :
    (xs.foldl (fun a x ↦ a.bind x.array.name (f x)) a).get? name = a.get? name := by
  induction xs generalizing a with
  | nil => rfl
  | cons x xs ih =>
    rw [List.forall_mem_cons] at h
    rw [List.foldl_cons, ih h.2, get?_bind, if_neg h.1]

theorem get?_foldl_bind_of_mem (f : Extent → ByteArray) {xs : List Extent} {a : Assignment}
    (hd : xs.Pairwise fun x y ↦ x.array.name ≠ y.array.name) {x : Extent} (hx : x ∈ xs) :
    (xs.foldl (fun a x ↦ a.bind x.array.name (f x)) a).get? x.array.name = some (f x) := by
  induction xs generalizing a with
  | nil => simp at hx
  | cons y xs ih =>
    rw [List.pairwise_cons] at hd
    rw [List.foldl_cons]
    rw [List.mem_cons] at hx
    obtain rfl | hx := hx
    · rw [get?_foldl_bind_of_ne f fun z hz ↦ (hd.1 z hz).symm, get?_bind, if_pos rfl]
    · exact ih hd.2 hx

variable {exprs : List Expr} {xs : List Extent} {a b : Assignment}

theorem mem_positionsOf {name : String} {i : Nat} :
    (name, i) ∈ positionsOf xs ↔ ∃ x ∈ xs, x.array.name = name ∧ i ∈ x.positions := by
  simp only [positionsOf, List.mem_flatMap, List.mem_map, Prod.mk.injEq]
  grind

theorem Spans.nodup_positionsOf (h : Spans exprs xs) : (positionsOf xs).Nodup := by
  refine List.nodup_flatMap.2 ⟨fun x _ ↦ ?_, h.distinct.imp fun hne ↦ ?_⟩
  · exact x.nodup_positions.map fun i j hij ↦ (Prod.mk.inj hij).2
  · intro p hp hq
    rw [List.mem_map] at hp hq
    obtain ⟨i, -, rfl⟩ := hp
    obtain ⟨j, -, hj⟩ := hq
    exact hne (Prod.mk.inj hj).1.symm

theorem Spans.get?_startOf (h : Spans exprs xs) {x : Extent} (hx : x ∈ xs) :
    (startOf xs).get? x.array.name = some (Bytes.zeros x.array.size) :=
  get?_foldl_bind_of_mem _ h.distinct hx

theorem get?_startOf_eq_none {name : String} (h : ∀ x ∈ xs, x.array.name ≠ name) :
    (startOf xs).get? name = none := by
  rw [startOf, get?_foldl_bind_of_ne _ h]
  rfl

theorem Spans.bound_startOf (h : Spans exprs xs) : (startOf xs).Bound (positionsOf xs) := by
  rintro ⟨name, i⟩ hp
  obtain ⟨x, hx, rfl, hi⟩ := mem_positionsOf.1 hp
  rw [byteAt_isSome, h.get?_startOf hx]
  exact ⟨_, rfl, by simpa [Bytes.size_zeros] using h.inBounds x hx i hi⟩

theorem Spans.code_startOf (h : Spans exprs xs) (ps : List (String × Nat)) :
    (startOf xs).code ps = 0 := by
  have hzero : ∀ name i, ((startOf xs).byteAt name i).getD 0 = 0 := by
    intro name i
    by_cases hname : ∃ x ∈ xs, x.array.name = name
    · obtain ⟨x, hx, rfl⟩ := hname
      rw [byteAt, h.get?_startOf hx, Option.bind_some]
      cases hb : (Bytes.zeros x.array.size)[i]? with
      | none => rfl
      | some b => exact Bytes.getElem?_zeros hb
    · rw [byteAt, get?_startOf_eq_none (by simpa using hname)]
      rfl
  induction ps with
  | nil => rfl
  | cons p ps ih => rw [code, hzero, ih]; rfl

variable {arrays : List NamedArray}

theorem Spans.exists_get?_moved {ps : List (String × Nat)} (h : Spans exprs xs)
    (hb : Moved ps (startOf xs) b) {x : Extent} (hx : x ∈ xs) :
    ∃ bytes, b.get? x.array.name = some bytes ∧ bytes.size = x.array.size := by
  have hsize := hb.size_eq x.array.name
  rw [h.get?_startOf hx, Option.map_some, Bytes.size_zeros, Option.map_eq_some_iff] at hsize
  exact hsize

theorem get?_moved_eq_none {ps : List (String × Nat)} (hb : Moved ps (startOf xs) b)
    {name : String} (h : ∀ x ∈ xs, x.array.name ≠ name) : b.get? name = none := by
  have hsize := hb.size_eq name
  rw [get?_startOf_eq_none h] at hsize
  simpa using hsize

/-- The inputs that `exprs` read are among `arrays`, and all names are apart. -/
structure Reaches (exprs : List Expr) (arrays : List NamedArray) : Prop where
  mem : ∀ e ∈ exprs, ∀ A i, e.HasRead (A, i) → A.isSymbolic → A ∈ arrays
  apart : ∀ e ∈ exprs, ∀ A i, e.HasRead (A, i) → NamesApart (A :: arrays)

theorem Reaches.name_ne (hr : Reaches exprs arrays) (h : Spans exprs xs) {e : Expr} (he : e ∈ exprs)
    {A : NamedArray} {i : Expr} (hA : e.HasRead (A, i)) (hs : ¬A.isSymbolic) :
    ∀ x ∈ xs, x.array.name ≠ A.name := by
  intro x hx hname
  obtain ⟨hsx, j, e', he', hread⟩ := h.source x hx
  have hxA := hr.apart e he A i hA x.array (by simp [hr.mem e' he' _ j hread hsx]) A (by simp) hsx
    hname
  exact hs (hxA ▸ hsx)

theorem Reaches.exists_extent (hr : Reaches exprs arrays) (h : Spans exprs xs) {e : Expr}
    (he : e ∈ exprs) {A : NamedArray} {i : Expr} (hA : e.HasRead (A, i)) (hs : A.isSymbolic) :
    ∃ x ∈ xs, x.array = A ∧ x.Covers A i := by
  obtain ⟨x, hx, hname, hcov⟩ := h.covers hs ⟨e, he, hA⟩
  obtain ⟨hsx, j, e', he', hread⟩ := h.source x hx
  refine ⟨x, hx, ?_, hcov⟩
  exact hr.apart e he A i hA x.array (by simp [hr.mem e' he' _ j hread hsx]) A (by simp) hsx hname

theorem eval_eq_of_positions (hr : Reaches exprs arrays) (h : Spans exprs xs) (ha : a.Fits arrays)
    (hb : Moved (positionsOf xs) (startOf xs) b)
    (hp : ∀ p ∈ positionsOf xs, b.byteAt p.1 p.2 = a.byteAt p.1 p.2) :
    ∀ e ∈ exprs, b.eval e = a.eval e := by
  intro e he
  have hfree : b.free = a.free := by rw [hb.free_eq, startOf, free_foldl_bind, ha.free]
  refine eval_congr fun ⟨A, i⟩ hread n hn ↦ byte?_congr hfree ?_
  by_cases hs : A.isSymbolic
  · obtain ⟨x, hx, rfl, hcov⟩ := hr.exists_extent h he hread hs
    by_cases hlt : n < x.array.size
    · refine hp (x.array.name, n) (mem_positionsOf.2 ⟨x, hx, rfl, hcov n hlt fun m hm ↦ ?_⟩)
      rw [Expr.value?_eq_some] at hm
      rw [hm, eval_const] at hn
      exact Option.some.inj hn
    · obtain ⟨bytes, hget, hsize⟩ := h.exists_get?_moved hb hx
      obtain ⟨bytes', hget', hsize'⟩ := ha.bound x.array (hr.mem e he _ i hread hs) hs
      have hnone : ∀ {bs : ByteArray}, bs.size = x.array.size → bs[n]? = none := by
        intro bs hbs
        rw [getElem?_neg bs n (by omega)]
      rw [byteAt, byteAt, hget, hget', Option.bind_some, Option.bind_some, hnone hsize,
        hnone hsize']
  · rw [byteAt, byteAt, get?_moved_eq_none hb (hr.name_ne h he hread hs),
      ha.get?_eq_none (hr.apart e he A i hread) hs]

theorem exists_combination (hr : Reaches exprs arrays) (h : Spans exprs xs) (ha : a.Fits arrays) :
    ∃ b ∈ combinations (positionsOf xs) (Nat.pow 256 (positionsOf xs).length) (startOf xs),
      ∀ e ∈ exprs, b.eval e = a.eval e := by
  have hd := h.nodup_positionsOf
  obtain ⟨t, ht, hbytes⟩ := exists_moved hd h.bound_startOf fun p ↦ (a.byteAt p.1 p.2).getD 0
  obtain ⟨b, hb, hfree, hbt⟩ := exists_mem_combinations hd h.bound_startOf ht
    (by rw [h.code_startOf]; exact Nat.zero_le _) (Nat.le_add_left _ _)
  refine ⟨b, hb, eval_eq_of_positions hr h ha (moved_of_mem_combinations hd h.bound_startOf hb) ?_⟩
  rintro ⟨name, i⟩ hp
  rw [hbt, hbytes _ hp]
  obtain ⟨x, hx, rfl, hi⟩ := mem_positionsOf.1 hp
  obtain ⟨hsx, j, e, he, hread⟩ := h.source x hx
  obtain ⟨bytes, hget, hsize⟩ := ha.bound x.array (hr.mem e he _ j hread hsx) hsx
  have hlt := h.inBounds x hx i hi
  rw [byteAt, hget, Option.bind_some, getElem?_pos bytes i (by omega)]
  rfl

/-- The inputs of the extents as under `b`, all others as under `a`. -/
def overlay (xs : List Extent) (a b : Assignment) : Assignment :=
  xs.foldl (fun a x ↦ a.bind x.array.name ((b.get? x.array.name).getD .empty)) a

theorem Spans.get?_overlay {ps : List (String × Nat)} (h : Spans exprs xs)
    (hb : Moved ps (startOf xs) b) {x : Extent} (hx : x ∈ xs) :
    (overlay xs a b).get? x.array.name = b.get? x.array.name := by
  obtain ⟨bytes, hget, -⟩ := h.exists_get?_moved hb hx
  rw [overlay, get?_foldl_bind_of_mem _ h.distinct hx, hget]
  rfl

theorem get?_overlay_of_ne {name : String} (h : ∀ x ∈ xs, x.array.name ≠ name) :
    (overlay xs a b).get? name = a.get? name :=
  get?_foldl_bind_of_ne _ h

theorem free_overlay (xs : List Extent) (a b : Assignment) : (overlay xs a b).free = a.free :=
  free_foldl_bind _ xs a

theorem fits_overlay {ps : List (String × Nat)} (hr : Reaches exprs arrays)
    (hn : NamesApart arrays) (h : Spans exprs xs) (ha : a.Fits arrays)
    (hb : Moved ps (startOf xs) b) : (overlay xs a b).Fits arrays := by
  have hmem : ∀ x ∈ xs, x.array ∈ arrays ∧ x.array.isSymbolic := by
    intro x hx
    obtain ⟨hsx, j, e, he, hread⟩ := h.source x hx
    exact ⟨hr.mem e he _ j hread hsx, hsx⟩
  refine ⟨(free_overlay xs a b).trans ha.free, fun A hA hs ↦ ?_, fun {name bytes} hget ↦ ?_⟩
  · by_cases hname : ∃ x ∈ xs, x.array.name = A.name
    · obtain ⟨x, hx, hxA⟩ := hname
      obtain rfl := hn x.array (hmem x hx).1 A hA (hmem x hx).2 hxA
      rw [h.get?_overlay hb hx]
      exact h.exists_get?_moved hb hx
    · rw [get?_overlay_of_ne (by simpa using hname)]
      exact ha.bound A hA hs
  · by_cases hname : ∃ x ∈ xs, x.array.name = name
    · obtain ⟨x, hx, rfl⟩ := hname
      exact ⟨x.array, (hmem x hx).1, (hmem x hx).2, rfl⟩
    · rw [get?_overlay_of_ne (by simpa using hname)] at hget
      exact ha.only hget

theorem eval_overlay {ps : List (String × Nat)} (hr : Reaches exprs arrays) (h : Spans exprs xs)
    (ha : a.Fits arrays) (hb : Moved ps (startOf xs) b) :
    ∀ e ∈ exprs, (overlay xs a b).eval e = b.eval e := by
  intro e he
  refine eval_congr_get? ?_ fun A i hread ↦ ?_
  · rw [free_overlay, hb.free_eq, startOf, free_foldl_bind, ha.free]
  · by_cases hs : A.isSymbolic
    · obtain ⟨x, hx, rfl, -⟩ := hr.exists_extent h he hread hs
      exact h.get?_overlay hb hx
    · have hne := hr.name_ne h he hread hs
      rw [get?_overlay_of_ne hne, get?_moved_eq_none hb hne,
        ha.get?_eq_none (hr.apart e he A i hread) hs]

theorem eval_overlay_of_apart {c : Expr}
    (hc : ∀ A i, c.HasRead (A, i) → ∀ x ∈ xs, x.array.name ≠ A.name) :
    (overlay xs a b).eval c = a.eval c :=
  eval_congr_get? (free_overlay xs a b) fun A i hread ↦ get?_overlay_of_ne (hc A i hread)

end Enumeration

end Symex
