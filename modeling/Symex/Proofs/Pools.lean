import Symex.Memory.Pool
import Symex.Proofs.Words

namespace Symex

theorem dvd_alignUp (a : Nat) : allocationAlignment ∣ alignUp a := Nat.dvd_mul_left ..

theorem le_alignUp {a : Nat} (ha : a + allocationAlignment ≤ wordLimit) : a ≤ alignUp a := by
  unfold alignUp
  simp only [allocationAlignment] at ha ⊢
  omega

theorem alignUp_mono {a b : Nat} (h : a ≤ b) : alignUp a ≤ alignUp b := by
  unfold alignUp
  simp only [allocationAlignment]
  omega

theorem alignUp_add_le (a : Nat) : alignUp a + allocationAlignment ≤ wordLimit := by
  simp only [alignUp, allocationAlignment, wordLimit_eq]
  omega

theorem alignUp_cases (a : Nat) : a ≤ alignUp a ∨ alignUp a + allocationAlignment = wordLimit := by
  simp only [alignUp, allocationAlignment, wordLimit_eq]
  omega

/-- The addresses that were handed out, from `start` up to `stop`. -/
structure Reservation where
  start : Nat
  stop : Nat
deriving DecidableEq

namespace AddressPool

/-- Reservations one after the other: what is handed out, and the pool afterwards. -/
def reserveAll (p : AddressPool) : List Nat → List Reservation × AddressPool
  | [] => ([], p)
  | size :: sizes =>
    match p.reserve size with
    | none => p.reserveAll sizes
    | some (start, rest) =>
      (⟨start, start + max size 1⟩ :: (rest.reserveAll sizes).1, (rest.reserveAll sizes).2)

/-- The next address of the pool is aligned, as pools are made and as reservations leave them. -/
structure Aligned (p : AddressPool) : Prop where
  dvd : allocationAlignment ∣ p.next
  room : p.next + allocationAlignment ≤ wordLimit

variable {p q : AddressPool} {size start : Nat}

theorem aligned_ofRange (start size : Nat) : (ofRange start size).Aligned :=
  ⟨dvd_alignUp _, alignUp_add_le _⟩

theorem reserve_eq_some (h : p.reserve size = some (start, q)) :
    start = p.next ∧ p.next + max size 1 ≤ p.limit ∧ q = { p with next := alignUp (p.next + max size 1) } := by
  unfold reserve at h
  dsimp only at h
  split at h
  · cases h
  · obtain ⟨rfl, rfl⟩ := Prod.mk.inj (Option.some.inj h)
    exact ⟨rfl, by omega, rfl⟩

theorem Aligned.reserve (hp : p.Aligned) (h : p.reserve size = some (start, q)) :
    q.Aligned ∧ q.limit = p.limit ∧ p.next ≤ q.next ∧
      (start + max size 1 ≤ q.next ∨ wordLimit < start + max size 1 + allocationAlignment) := by
  obtain ⟨rfl, -, rfl⟩ := reserve_eq_some h
  have hroom := hp.room
  refine ⟨⟨dvd_alignUp _, alignUp_add_le _⟩, rfl, ?_, ?_⟩
  · have := alignUp_cases (p.next + max size 1)
    dsimp only
    omega
  · by_cases hle : p.next + max size 1 + allocationAlignment ≤ wordLimit
    · exact .inl (le_alignUp hle)
    · exact .inr (by omega)

/-- What a pool hands out is aligned, lies between its next address and its limit, and goes up as far
as the last aligned address. -/
theorem Aligned.reserveAll (hp : p.Aligned) (sizes : List Nat) :
    (∀ r ∈ (p.reserveAll sizes).1, allocationAlignment ∣ r.start ∧ p.next ≤ r.start ∧ r.start < r.stop ∧
      r.stop ≤ p.limit) ∧
    (p.reserveAll sizes).1.Pairwise fun r r' ↦
      r.stop ≤ r'.start ∨ wordLimit < r.stop + allocationAlignment := by
  induction sizes generalizing p with
  | nil => simp [reserveAll]
  | cons size sizes ih =>
    unfold reserveAll
    split
    · exact ih hp
    · rename_i start rest hreserve
      obtain ⟨hrest, hlimit, hnext, hstop⟩ := hp.reserve hreserve
      obtain ⟨rfl, hle, -⟩ := reserve_eq_some hreserve
      obtain ⟨hmem, hapart⟩ := ih hrest
      refine ⟨List.forall_mem_cons.2 ⟨⟨hp.dvd, Nat.le_refl _, by dsimp only; omega, hle⟩, fun r hr ↦ ?_⟩,
        List.pairwise_cons.2 ⟨fun r hr ↦ ?_, hapart⟩⟩
      · obtain ⟨hdvd, hge, hlt, hstop⟩ := hmem r hr
        exact ⟨hdvd, Nat.le_trans hnext hge, hlt, hlimit ▸ hstop⟩
      · exact hstop.imp_left fun h ↦ Nat.le_trans h (hmem r hr).2.1

theorem reserveAll_append (p : AddressPool) (before after : List Nat) :
    p.reserveAll (before ++ after) =
      ((p.reserveAll before).1 ++ ((p.reserveAll before).2.reserveAll after).1,
        ((p.reserveAll before).2.reserveAll after).2) := by
  induction before generalizing p with
  | nil => rfl
  | cons size before ih =>
    simp only [List.cons_append, reserveAll]
    split
    · exact ih p
    · simp [ih]

theorem reserveAll_failed {before : List Nat} (h : (p.reserveAll before).2.reserve size = none)
    (after : List Nat) : p.reserveAll (before ++ size :: after) = p.reserveAll (before ++ after) := by
  rw [reserveAll_append, reserveAll_append, reserveAll, h]

/-- Reservations are aligned and stay inside of the range of the pool, unless this range starts after the last
aligned address. Two of them share no address, unless the earlier one ends after the last aligned address. -/
theorem reserveAll_ofRange (start size : Nat) (sizes : List Nat) :
    (∀ r ∈ ((ofRange start size).reserveAll sizes).1, allocationAlignment ∣ r.start ∧ r.start < r.stop ∧
      (start ≤ r.start ∨ wordLimit < start + allocationAlignment) ∧
      r.stop ≤ min (start + size) (wordLimit - 1)) ∧
    (((ofRange start size).reserveAll sizes).1.Pairwise fun r r' ↦
      r.stop ≤ r'.start ∨ wordLimit < r.stop + allocationAlignment) ∧
    ∀ before failing after, ((ofRange start size).reserveAll before).2.reserve failing = none →
      (ofRange start size).reserveAll (before ++ failing :: after) =
        (ofRange start size).reserveAll (before ++ after) := by
  obtain ⟨hmem, hapart⟩ := (aligned_ofRange start size).reserveAll sizes
  refine ⟨fun r hr ↦ ?_, hapart, fun _ _ after h ↦ reserveAll_failed h after⟩
  obtain ⟨hdvd, hge, hlt, hle⟩ := hmem r hr
  refine ⟨hdvd, hlt, ?_, hle⟩
  by_cases hstart : start + allocationAlignment ≤ wordLimit
  · exact .inl (Nat.le_trans (le_alignUp hstart) hge)
  · exact .inr (Nat.lt_of_not_le hstart)

-- The last aligned address is handed out again and again.
example : ((ofRange (wordLimit - 16) 16).reserveAll [8, 1, 1]).1.map (·.start) =
    [wordLimit - 16, wordLimit - 8, wordLimit - 8] := by decide

theorem reserveAll_ofRange_disjoint {start size : Nat} (h : start + size + allocationAlignment ≤ wordLimit)
    (sizes : List Nat) :
    (∀ r ∈ ((ofRange start size).reserveAll sizes).1, start ≤ r.start ∧ r.stop ≤ start + size) ∧
    ((ofRange start size).reserveAll sizes).1.Pairwise (·.stop ≤ ·.start) := by
  obtain ⟨hmem, hapart⟩ := (aligned_ofRange start size).reserveAll sizes
  have hstop : ∀ r ∈ ((ofRange start size).reserveAll sizes).1, r.stop ≤ start + size := fun r hr ↦
    Nat.le_trans (hmem r hr).2.2.2 (Nat.min_le_left _ _)
  refine ⟨fun r hr ↦ ⟨Nat.le_trans (le_alignUp (by omega)) (hmem r hr).2.1, hstop r hr⟩,
    hapart.imp_of_mem fun {r r'} hr _ h ↦ h.resolve_right fun hlt ↦ ?_⟩
  have := hstop r hr
  omega

end AddressPool

theorem Allocator.size_of_allocate {a a' : Allocator} {p p' : AddressPool} {size : Nat} {isLocal isGlobal : Bool}
    {site : AllocationSite} {name : String} {object : MemoryObject}
    (h : a.allocate p size isLocal isGlobal site name = some (object, a', p')) : object.size = size := by
  unfold allocate at h
  split at h
  · cases h
  · obtain ⟨_, -, h⟩ := Option.map_eq_some_iff.1 h
    cases h
    rfl

end Symex
