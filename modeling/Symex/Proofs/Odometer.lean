import Mathlib.Algebra.Group.Nat.Defs
import Symex.Solver.Enumeration

namespace Symex

namespace Bytes

theorem getElem?_eq_data (bytes : ByteArray) (i : Nat) : bytes[i]? = bytes.data[i]? := by
  rcases Nat.lt_or_ge i bytes.size with h | h
  · rw [getElem?_pos bytes i h, getElem?_pos bytes.data i h]
    rfl
  · rw [getElem?_neg bytes i (by omega), getElem?_neg bytes.data i (by simpa using h)]

@[simp] theorem size_set {bytes : ByteArray} {i : Nat} (h : i < bytes.size) (b : UInt8) :
    (bytes.set i b h).size = bytes.size := by
  change (bytes.set i b h).data.size = bytes.data.size
  rw [ByteArray.data_set, Array.size_set]

theorem getElem?_set {bytes : ByteArray} {i : Nat} (h : i < bytes.size) (b : UInt8) (j : Nat) :
    (bytes.set i b h)[j]? = if i = j then some b else bytes[j]? := by
  rw [getElem?_eq_data, getElem?_eq_data, ByteArray.data_set, Array.getElem?_set]

end Bytes

namespace Assignment

variable {a b t : Assignment}

/-- The byte that the assignment gives to an index of an array. -/
def byteAt (a : Assignment) (name : String) (i : Nat) : Option UInt8 := (a.get? name).bind (·[i]?)

theorem byte?_congr {array : NamedArray} {n : Nat} (hf : a.free = b.free)
    (h : a.byteAt array.name n = b.byteAt array.name n) : a.byte? array n = b.byte? array n := by
  unfold byteAt at h
  unfold byte?
  rw [h, hf]

theorem get?_bind (a : Assignment) (name name' : String) (bytes : ByteArray) :
    (a.bind name bytes).get? name' = if name = name' then some bytes else a.get? name' := by
  rw [get?, bind, Std.TreeMap.getElem?_insert]
  simp only [Std.compare_eq_iff_eq]
  rfl

theorem get?_poke (a : Assignment) (name name' : String) (i : Nat) (b : UInt8) :
    (a.poke name i b).get? name' =
      if name = name' then
        (a.get? name).map fun bytes ↦ if h : i < bytes.size then bytes.set i b h else bytes
      else a.get? name' := by
  rw [get?, poke, Std.TreeMap.getElem?_modify]
  simp only [Std.compare_eq_iff_eq]
  rfl

/-- The assignment `t` differs from `a` at most in the bytes at `positions`. -/
structure Moved (positions : List (String × Nat)) (a t : Assignment) : Prop where
  free_eq : t.free = a.free
  size_eq : ∀ name, (t.get? name).map (·.size) = (a.get? name).map (·.size)
  byteAt_eq : ∀ name i, (name, i) ∉ positions → t.byteAt name i = a.byteAt name i

variable {ps : List (String × Nat)}

theorem Moved.refl (ps : List (String × Nat)) (a : Assignment) : Moved ps a a :=
  ⟨rfl, fun _ ↦ rfl, fun _ _ _ ↦ rfl⟩

theorem Moved.trans (h : Moved ps a b) (h' : Moved ps b t) : Moved ps a t :=
  ⟨h'.free_eq.trans h.free_eq, fun n ↦ (h'.size_eq n).trans (h.size_eq n),
    fun n i hp ↦ (h'.byteAt_eq n i hp).trans (h.byteAt_eq n i hp)⟩

theorem Moved.symm (h : Moved ps a b) : Moved ps b a :=
  ⟨h.free_eq.symm, fun n ↦ (h.size_eq n).symm, fun n i hp ↦ (h.byteAt_eq n i hp).symm⟩

theorem byteAt_isSome {name : String} {i : Nat} :
    (a.byteAt name i).isSome ↔ ∃ n, (a.get? name).map (·.size) = some n ∧ i < n := by
  unfold byteAt
  cases a.get? name with
  | none => simp
  | some bytes => simp [Bytes.getElem?_eq_data]

theorem Moved.isSome (h : Moved ps a b) {name : String} {i : Nat} :
    (b.byteAt name i).isSome ↔ (a.byteAt name i).isSome := by
  rw [byteAt_isSome, byteAt_isSome, h.size_eq]

theorem moved_poke (a : Assignment) (name : String) (i : Nat) (b : UInt8) :
    Moved [(name, i)] a (a.poke name i b) := by
  refine ⟨rfl, fun n ↦ ?_, fun n j hp ↦ ?_⟩
  · rw [get?_poke]
    split
    · rename_i h
      subst h
      cases a.get? name with
      | none => rfl
      | some bytes =>
        simp only [Option.map_some]
        split
        · rw [Bytes.size_set]
        · rfl
    · rfl
  · rw [byteAt, byteAt, get?_poke]
    split
    · rename_i h
      subst h
      have hij : i ≠ j := by simpa [eq_comm] using hp
      cases a.get? name with
      | none => rfl
      | some bytes =>
        simp only [Option.map_some, Option.bind_some]
        split
        · rw [Bytes.getElem?_set, if_neg hij]
        · rfl
    · rfl

theorem byteAt_poke {name : String} {i : Nat} (h : (a.byteAt name i).isSome) (b : UInt8) :
    (a.poke name i b).byteAt name i = some b := by
  unfold byteAt at h ⊢
  rw [get?_poke, if_pos rfl]
  cases hn : a.get? name with
  | none => simp [hn] at h
  | some bytes =>
    have hi : i < bytes.size := by simpa [hn] using h
    simp only [Option.map_some, Option.bind_some, dif_pos hi]
    rw [Bytes.getElem?_set, if_pos rfl]

/-- The bytes at `positions` as one number, the first of them in the lowest place. -/
def code (a : Assignment) : List (String × Nat) → Nat
  | [] => 0
  | p :: ps => ((a.byteAt p.1 p.2).getD 0).toNat + 256 * a.code ps

theorem code_lt (a : Assignment) (ps : List (String × Nat)) : a.code ps < 256 ^ ps.length := by
  induction ps with
  | nil => simp [code]
  | cons p ps ih =>
    have hb := ((a.byteAt p.1 p.2).getD 0).toNat_lt
    rw [code, List.length_cons, Nat.pow_succ]
    omega

theorem code_congr (h : ∀ p ∈ ps, a.byteAt p.1 p.2 = b.byteAt p.1 p.2) : a.code ps = b.code ps := by
  induction ps with
  | nil => rfl
  | cons p ps ih =>
    rw [List.forall_mem_cons] at h
    rw [code, code, h.1, ih h.2]

def Bound (a : Assignment) (ps : List (String × Nat)) : Prop :=
  ∀ p ∈ ps, (a.byteAt p.1 p.2).isSome

theorem Bound.of_moved {qs : List (String × Nat)} (h : Moved qs a b) (ha : a.Bound ps) : b.Bound ps :=
  fun p hp ↦ h.isSome.2 (ha p hp)

theorem byteAt_eq_of_code_eq (ha : a.Bound ps) (hb : b.Bound ps) (h : a.code ps = b.code ps) :
    ∀ p ∈ ps, a.byteAt p.1 p.2 = b.byteAt p.1 p.2 := by
  induction ps with
  | nil => simp
  | cons p ps ih =>
    unfold Bound at ha hb
    rw [List.forall_mem_cons] at ha hb ⊢
    obtain ⟨x, hx⟩ := Option.isSome_iff_exists.1 ha.1
    obtain ⟨y, hy⟩ := Option.isSome_iff_exists.1 hb.1
    have hx256 := x.toNat_lt
    have hy256 := y.toNat_lt
    simp only [code, hx, hy, Option.getD_some] at h
    have hxy : x = y := UInt8.toNat_inj.1 (by omega)
    exact ⟨by rw [hx, hy, hxy], ih ha.2 hb.2 (by omega)⟩

theorem exists_moved (hd : ps.Nodup) (ha : a.Bound ps) (f : String × Nat → UInt8) :
    ∃ t, Moved ps a t ∧ ∀ p ∈ ps, t.byteAt p.1 p.2 = some (f p) := by
  induction ps with
  | nil => exact ⟨a, .refl [] a, by simp⟩
  | cons p ps ih =>
    obtain ⟨name, j⟩ := p
    rw [List.nodup_cons] at hd
    unfold Bound at ha
    rw [List.forall_mem_cons] at ha
    obtain ⟨t, ht, hbytes⟩ := ih hd.2 ha.2
    have hpoke := moved_poke t name j (f (name, j))
    refine ⟨t.poke name j (f (name, j)), ⟨hpoke.free_eq.trans ht.free_eq, fun n ↦ ?_, fun n i hp ↦ ?_⟩,
      List.forall_mem_cons.2 ⟨byteAt_poke (ht.isSome.2 ha.1) _, fun q hq ↦ ?_⟩⟩
    · exact (hpoke.size_eq n).trans (ht.size_eq n)
    · rw [List.mem_cons, not_or] at hp
      exact (hpoke.byteAt_eq n i (by simpa using hp.1)).trans (ht.byteAt_eq n i hp.2)
    · obtain ⟨m, k⟩ := q
      rw [← hbytes (m, k) hq]
      refine hpoke.byteAt_eq m k fun hmem ↦ hd.1 ?_
      rw [List.mem_singleton] at hmem
      exact hmem ▸ hq

end Assignment

namespace Enumeration

open Assignment

variable {a b t : Assignment} {ps : List (String × Nat)}

theorem advance_spec (hd : ps.Nodup) (ha : a.Bound ps) :
    match advance a ps with
    | some a' => Moved ps a a' ∧ a'.code ps = a.code ps + 1
    | none => a.code ps + 1 = 256 ^ ps.length := by
  induction ps generalizing a with
  | nil => simp [advance, code]
  | cons p ps ih =>
    obtain ⟨name, i⟩ := p
    rw [List.nodup_cons] at hd
    unfold Bound at ha
    rw [List.forall_mem_cons] at ha
    obtain ⟨x, hx⟩ := Option.isSome_iff_exists.1 ha.1
    have hget : (a.get? name).bind (·[i]?) = some x := hx
    have hpoke := byteAt_poke ha.1 (x + 1)
    have hmoved := moved_poke a name i (x + 1)
    have hcode : (a.poke name i (x + 1)).code ps = a.code ps := by
      refine code_congr fun q hq ↦ hmoved.byteAt_eq q.1 q.2 ?_
      rintro hmem
      rw [List.mem_singleton] at hmem
      exact hd.1 (hmem ▸ hq)
    have hwiden : ∀ {c d}, Moved ps c d → Moved ((name, i) :: ps) c d := fun h ↦
      ⟨h.free_eq, h.size_eq, fun n j hp ↦ h.byteAt_eq n j (by simp_all)⟩
    have hfirst : Moved ((name, i) :: ps) a (a.poke name i (x + 1)) :=
      ⟨hmoved.free_eq, hmoved.size_eq, fun n j hp ↦ hmoved.byteAt_eq n j (by simp_all)⟩
    have hx256 := x.toNat_lt
    have hnext : (x + 1).toNat = (x.toNat + 1) % 256 := UInt8.toNat_add x 1
    have hsum : a.code ((name, i) :: ps) = x.toNat + 256 * a.code ps := by
      rw [code, hx, Option.getD_some]
    rw [advance, hsum]
    simp only [hget]
    by_cases h0 : x + 1 = 0
    · rw [if_pos h0]
      have hx255 : x.toNat = 255 := by
        rw [h0, UInt8.toNat_zero] at hnext
        omega
      have hrest := ih hd.2 (Bound.of_moved hmoved ha.2)
      rw [hcode] at hrest
      split at hrest
      · rename_i a' ha'
        have hbyte : a'.byteAt name i = some 0 := by
          rw [hrest.1.byteAt_eq name i hd.1, hpoke, h0]
        refine ⟨hfirst.trans (hwiden hrest.1), ?_⟩
        rw [code, hbyte, Option.getD_some, hrest.2, UInt8.toNat_zero]
        omega
      · rw [List.length_cons, Nat.pow_succ]
        omega
    · rw [if_neg h0]
      refine ⟨hfirst, ?_⟩
      have hx255 : x.toNat ≠ 255 := by
        intro h
        rw [h] at hnext
        exact h0 (UInt8.toNat_inj.1 hnext)
      rw [code, hpoke, Option.getD_some, hcode, hnext]
      omega

/-- The combinations that are gone through, at most `fuel` of them. -/
def combinations (ps : List (String × Nat)) : Nat → Assignment → List Assignment
  | 0, _ => []
  | fuel + 1, a =>
    a :: match advance a ps with
      | none => []
      | some a' => combinations ps fuel a'

theorem moved_of_mem_combinations {fuel : Nat} (hd : ps.Nodup) (ha : a.Bound ps)
    (hb : b ∈ combinations ps fuel a) : Moved ps a b := by
  induction fuel generalizing a with
  | zero => simp [combinations] at hb
  | succ fuel ih =>
    have hstep := advance_spec hd ha
    rw [combinations, List.mem_cons] at hb
    obtain rfl | hb := hb
    · exact .refl ps b
    · split at hstep
      · rename_i a' ha'
        simp only [ha'] at hb
        exact hstep.1.trans (ih (Bound.of_moved hstep.1 ha) hb)
      · rename_i hnone
        simp [hnone] at hb

theorem exists_mem_combinations {fuel : Nat} (hd : ps.Nodup) (ha : a.Bound ps) (ht : Moved ps a t)
    (hle : a.code ps ≤ t.code ps) (hfuel : 256 ^ ps.length ≤ a.code ps + fuel) :
    ∃ b ∈ combinations ps fuel a, b.free = t.free ∧ ∀ name i, b.byteAt name i = t.byteAt name i := by
  induction fuel generalizing a with
  | zero =>
    have := a.code_lt ps
    omega
  | succ fuel ih =>
    rw [combinations]
    by_cases heq : a.code ps = t.code ps
    · have hbytes := byteAt_eq_of_code_eq ha (Bound.of_moved ht ha) heq
      refine ⟨a, by simp, ht.free_eq.symm, fun name i ↦ ?_⟩
      by_cases hp : (name, i) ∈ ps
      · exact hbytes _ hp
      · exact (ht.byteAt_eq name i hp).symm
    · have hstep := advance_spec hd ha
      have hlt := t.code_lt ps
      split at hstep
      · rename_i a' ha'
        obtain ⟨b, hb, hfree, hbytes⟩ := ih (Bound.of_moved hstep.1 ha) (hstep.1.symm.trans ht)
          (by omega) (by omega)
        exact ⟨b, by simp [ha', hb], hfree, hbytes⟩
      · omega

end Enumeration

end Symex
