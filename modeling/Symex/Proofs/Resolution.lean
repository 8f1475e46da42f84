import Symex.Proofs.Questions
import Symex.Proofs.Spaces

namespace Symex

open Bits

variable {σ : Type} {I : Inputs} {a : Assignment} {p : Expr}

/-! ## Conditions on pointers -/

theorem BinOp.fold_sub {x y w : Nat} (hx : x < 2 ^ w) (hy : y < 2 ^ w) :
    BinOp.sub.fold x y w = if y ≤ x then x - y else x + 2 ^ w - y := by
  simp only [fold, trunc_eq, Nat.mod_eq_of_lt hx, Nat.mod_eq_of_lt hy]
  rfl

theorem Assignment.val_pointer {v : Nat} (h : v < wordLimit) : a.val (.pointer v) = v := by
  rw [Expr.pointer, val_word]
  exact Nat.mod_eq_of_lt h

namespace Expr

variable {l r : Expr}

/-- The expression is a truth value that says that `P` holds. -/
structure Means (e : Expr) (P : Assignment → Prop) : Prop where
  truth : e.IsTruth
  val_iff : ∀ {a : Assignment}, a.free → (a.val e ≠ 0 ↔ P a)

theorem Means.congr {e : Expr} {P Q : Assignment → Prop} (h : e.Means P)
    (hPQ : ∀ {a : Assignment}, a.free → (P a ↔ Q a)) : e.Means Q :=
  ⟨h.truth, fun ha ↦ (h.val_iff ha).trans (hPQ ha)⟩

theorem exists_mkCompare_means {R : Nat → Nat → Prop} (op : CmpOp) (hl : l.WellFormed)
    (hr : r.WellFormed) (hw : l.width = r.width)
    (hR : ∀ x < 2 ^ l.width, ∀ y < 2 ^ l.width, (op.fold x y l.width = true ↔ R x y)) :
    ∃ e, mkCompare op l r = .ok e ∧ e.Means fun a ↦ R (a.val l) (a.val r) := by
  obtain ⟨e, he, hwf, hwidth⟩ := hl.exists_mkCompare hr op hw
  refine ⟨e, he, ⟨hwf, hwidth⟩, fun {a} ha ↦ ?_⟩
  have hlt := a.val_lt ha hr
  rw [← hw] at hlt
  rw [val_mkCompare ha hl hr he, ← hR _ (a.val_lt ha hl) _ hlt]
  simp

theorem exists_mkUlt (hl : l.WellFormed) (hr : r.WellFormed) (hw : l.width = r.width) :
    ∃ e, mkUlt l r = .ok e ∧ e.Means fun a ↦ a.val l < a.val r :=
  exists_mkCompare_means .ult hl hr hw fun x hx y hy ↦ by
    simp [CmpOp.fold, trunc_eq, Nat.mod_eq_of_lt hx, Nat.mod_eq_of_lt hy]

theorem exists_mkUge (hl : l.WellFormed) (hr : r.WellFormed) (hw : l.width = r.width) :
    ∃ e, mkUge l r = .ok e ∧ e.Means fun a ↦ a.val r ≤ a.val l :=
  exists_mkCompare_means .ule hr hl hw.symm fun x hx y hy ↦ by
    simp [CmpOp.fold, trunc_eq, Nat.mod_eq_of_lt hx, Nat.mod_eq_of_lt hy]

theorem exists_mkEq (hl : l.WellFormed) (hr : r.WellFormed) (hw : l.width = r.width) :
    ∃ e, mkEq l r = .ok e ∧ e.Means fun a ↦ a.val l = a.val r :=
  exists_mkCompare_means .eq hl hr hw fun x hx y hy ↦ by
    simp [CmpOp.fold, trunc_eq, Nat.mod_eq_of_lt hx, Nat.mod_eq_of_lt hy]

/-- A well-formed address. -/
structure IsAddress (e : Expr) : Prop where
  wellFormed : e.WellFormed
  width_eq : e.width = 64

theorem isAddress_pointer (v : Nat) : (pointer v).IsAddress :=
  ⟨word_wellFormed v (by decide) (by decide), rfl⟩

theorem IsAddress.val_lt (h : p.IsAddress) (ha : a.free) : a.val p < wordLimit := by
  have hlt := a.val_lt ha h.wellFormed
  rwa [h.width_eq] at hlt

end Expr

open Symex.Expr

namespace MemoryObject

variable {o : MemoryObject} {offset : Expr} {bytes : Nat}

theorem contains_iff {n : Nat} (ho : o.address + max o.size 1 ≤ wordLimit) :
    o.contains n = true ↔ o.address ≤ n ∧ n < o.address + max o.size 1 := by
  rw [contains]
  simp only [Bool.or_eq_true, decide_eq_true_eq, Bool.and_eq_true, beq_iff_eq]
  split
  · omega
  · omega

theorem exists_offset (ho : o.address < wordLimit) (hp : p.IsAddress) :
    ∃ e, o.offset p = .ok e ∧ e.IsAddress ∧ ∀ {a : Assignment}, a.free →
      a.val e = if o.address ≤ a.val p then a.val p - o.address
        else a.val p + wordLimit - o.address := by
  have hbase : o.base.IsAddress := isAddress_pointer _
  obtain ⟨e, he, hwf, hw⟩ := hp.wellFormed.exists_mkBinary hbase.wellFormed .sub
    (hp.width_eq.trans hbase.width_eq.symm)
  refine ⟨e, he, ⟨hwf, hw.trans hp.width_eq⟩, fun {a} ha ↦ ?_⟩
  rw [val_mkBinary ha hp.wellFormed hbase.wellFormed he, base, Assignment.val_pointer ho, hp.width_eq,
    BinOp.fold_sub (hp.val_lt ha) ho, wordLimit_eq]

theorem exists_offsetInside (hsize : o.size < wordLimit) (ho : offset.IsAddress) :
    ∃ e, o.offsetInside offset = .ok e ∧ e.Means (·.val offset < max o.size 1) := by
  unfold offsetInside
  split
  · obtain ⟨e, he, hmeans⟩ := exists_mkEq (isAddress_pointer 0).wellFormed ho.wellFormed
      ((isAddress_pointer 0).width_eq.trans ho.width_eq.symm)
    refine ⟨e, he, hmeans.congr fun ha ↦ ?_⟩
    rw [Assignment.val_pointer (by decide)]
    omega
  · obtain ⟨e, he, hmeans⟩ := exists_mkUlt ho.wellFormed (isAddress_pointer o.size).wellFormed
      (ho.width_eq.trans (isAddress_pointer o.size).width_eq.symm)
    refine ⟨e, he, hmeans.congr fun ha ↦ ?_⟩
    rw [Assignment.val_pointer hsize]
    omega

theorem exists_accessInside (hsize : o.size < wordLimit) (hbytes : 0 < bytes) (ho : offset.IsAddress) :
    ∃ e, o.accessInside offset bytes = .ok e ∧ e.Means (·.val offset + bytes ≤ o.size) := by
  unfold accessInside
  split
  · refine ⟨_, rfl, ⟨bool_wellFormed _, rfl⟩, fun {a} ha ↦ ?_⟩
    simp only [Expr.bool, Assignment.val_const, Bool.toNat_false, ne_eq, not_true_eq_false, false_iff]
    omega
  · have hlimit : o.size - bytes + 1 < wordLimit := by omega
    rw [ObjectState.addChecked_eq_ok.2 ⟨hlimit, rfl⟩]
    obtain ⟨e, he, hmeans⟩ := exists_mkUlt ho.wellFormed (isAddress_pointer (o.size - bytes + 1)).wellFormed
      (ho.width_eq.trans (isAddress_pointer _).width_eq.symm)
    refine ⟨e, he, hmeans.congr fun ha ↦ ?_⟩
    rw [Assignment.val_pointer hlimit]
    omega

section

variable (hstop : o.address + max o.size 1 ≤ wordLimit) (hsize : o.size < wordLimit) (hp : p.IsAddress)
include hstop hsize hp

theorem exists_pointerInside : ∃ e, o.pointerInside p = .ok e ∧
    e.Means fun a ↦ o.address ≤ a.val p ∧ a.val p < o.address + max o.size 1 := by
  obtain ⟨offset, hoffset, haddress, hval⟩ := exists_offset (o := o) (by omega) hp
  obtain ⟨e, he, hmeans⟩ := exists_offsetInside hsize haddress
  refine ⟨e, ?_, hmeans.congr fun {a} ha ↦ ?_⟩
  · rw [pointerInside, hoffset]
    exact he
  · have hlt := hp.val_lt ha
    rw [hval ha]
    split
    · omega
    · omega

theorem exists_pointerAccessInside (hbytes : 0 < bytes) :
    ∃ e, o.pointerAccessInside p bytes = .ok e ∧
      e.Means fun a ↦ o.address ≤ a.val p ∧ a.val p + bytes ≤ o.address + o.size := by
  obtain ⟨offset, hoffset, haddress, hval⟩ := exists_offset (o := o) (by omega) hp
  obtain ⟨e, he, hmeans⟩ := exists_accessInside hsize hbytes haddress
  refine ⟨e, ?_, hmeans.congr fun {a} ha ↦ ?_⟩
  · rw [pointerAccessInside, hoffset]
    exact he
  · have hlt := hp.val_lt ha
    rw [hval ha]
    split
    · omega
    · omega

end

end MemoryObject

/-! ## Searches -/

namespace AddressSpace

variable {m : AddressSpace} {q r : Entry} {c : ConstraintSet} {x : ObjectState} {n : Nat}

/-- Objects lie apart and do not wrap around the end of memory, and their sizes and ids are machine
words. -/
structure Addressable (m : AddressSpace) : Prop where
  spaced : m.Spaced
  stops : ∀ q ∈ m.entries, q.stop ≤ wordLimit
  sizes : ∀ q ∈ m.entries, q.2.object.size < wordLimit
  ids : ∀ q ∈ m.entries, q.1.id < wordLimit

theorem Addressable.address_eq (h : m.Addressable) (hq : q ∈ m.entries) :
    q.2.object.address = q.1.address := by
  rw [h.spaced.keyed q hq, MemoryObject.key]

theorem Addressable.object_stop (h : m.Addressable) (hq : q ∈ m.entries) :
    q.2.object.address + max q.2.object.size 1 ≤ wordLimit := by
  rw [h.address_eq hq]
  exact h.stops q hq

theorem Addressable.address_lt (h : m.Addressable) (hq : q ∈ m.entries) : q.1.address < wordLimit := by
  have := h.stops q hq
  rw [Entry.stop] at this
  omega

theorem Addressable.resolveOne_eq_some (h : m.Addressable) (hq : q ∈ m.entries)
    (hin : q.1.address ≤ n ∧ n < q.stop) : m.resolveOne n = some q.2 := by
  have hcontains : q.2.object.contains n = true := by
    rw [MemoryObject.contains_iff (h.object_stop hq), h.address_eq hq]
    exact hin
  have hle := (ObjectKey.compare_last_ne_gt (h.ids q hq)).2 hin.1
  rw [resolveOne]
  cases hfloor : m.objects.floor? (.last n) with
  | none => exact (hle (AvlMap.floor?_eq_none h.spaced.sorted hfloor q hq)).elim
  | some r =>
    -- an entry above the one that contains the address starts after it
    obtain ⟨hr, hrle, hmax⟩ := AvlMap.floor?_eq_some h.spaced.sorted hfloor
    have hrn := (ObjectKey.compare_last_ne_gt (h.ids r hr)).1 hrle
    obtain rfl : q = r := by
      obtain rfl | hlt := hmax q hq hle
      · rfl
      · obtain rfl | hqr | hrq := pairwise_cases h.spaced.apart hq hr
        · rfl
        · omega
        · have : r.1.address < Entry.stop r := by rw [Entry.stop]; omega
          rw [ObjectKey.compare_of_gt (by omega)] at hlt
          cases hlt
    simp [hcontains]

theorem Addressable.resolveOne_eq_some_iff (h : m.Addressable) :
    m.resolveOne n = some x ↔ ∃ q ∈ m.entries, x = q.2 ∧ q.1.address ≤ n ∧ n < q.stop := by
  constructor
  · intro hx
    rw [resolveOne, Option.bind_eq_some_iff] at hx
    obtain ⟨q, hfloor, hx⟩ := hx
    have hq := (AvlMap.floor?_eq_some h.spaced.sorted hfloor).1
    dsimp only at hx
    split at hx
    · rename_i hcontains
      rw [MemoryObject.contains_iff (h.object_stop hq), h.address_eq hq] at hcontains
      exact ⟨q, hq, (Option.some.inj hx).symm, hcontains⟩
    · cases hx
  · rintro ⟨q, hq, rfl, hin⟩
    exact h.resolveOne_eq_some hq hin

theorem Spaced.eq_of_contains (h : m.Spaced) (hq : q ∈ m.entries) (hr : r ∈ m.entries)
    (hqn : q.1.address ≤ n ∧ n < q.stop) (hrn : r.1.address ≤ n ∧ n < r.stop) : q = r := by
  obtain rfl | hqr | hrq := pairwise_cases h.apart hq hr
  · rfl
  · omega
  · omega

/-- In a solution, the pointer points into the object. -/
def PointsInto (a : Assignment) (p : Expr) (q : Entry) : Prop :=
  q.1.address ≤ a.val p ∧ a.val p < q.stop

theorem Addressable.exists_pointerInside (hm : m.Addressable) (hq : q ∈ m.entries)
    (hp : p.IsAddress) :
    ∃ e, q.2.object.pointerInside p = .ok e ∧ e.Means fun a ↦ PointsInto a p q := by
  obtain ⟨e, he, hmeans⟩ := MemoryObject.exists_pointerInside (hm.object_stop hq) (hm.sizes q hq) hp
  refine ⟨e, he, hmeans.congr fun ha ↦ ?_⟩
  rw [PointsInto, Entry.stop, hm.address_eq hq]

/-- The pointer points into the object in some solution. -/
def Hit (I : Inputs) (c : ConstraintSet) (p : Expr) (q : Entry) : Prop :=
  ∃ a, I.Solves a c ∧ PointsInto a p q

/-- What one more object does to a search: it is found if it can be hit, unless the search is cut off, and
the reasons to stop hold in all solutions. -/
structure Considered (I : Inputs) (c : ConstraintSet) (p : Expr) (cuts : Prop) (stops : Assignment → Prop)
    (q : Entry) (found : List ObjectState) (r : List ObjectState × Progress) : Prop where
  grown : r.1 = found ∨ r.1 = q.2 :: found ∧ Hit I c p q
  seen : r.2 = .cutOff ∨ (Hit I c p q → q.2 ∈ r.1)
  complete : r.2 = .complete → ∀ a, I.Solves a c → PointsInto a p q
  turned : r.2 = .turned → ∀ a, I.Solves a c → stops a
  cutOff : r.2 = .cutOff → cuts

/-- The condition to turn around, built for an object, says that `stops` holds. -/
def Stopping (stop : Expr → Expr → Checked Expr) (p : Expr) (stops : Assignment → Prop) (q : Entry) :
    Prop :=
  ∃ e, stop p q.2.object.base = .ok e ∧ e.Means stops

/-- What a sweep over some objects finds, and how it ends. -/
structure Swept (I : Inputs) (c : ConstraintSet) (p : Expr) (cuts : Prop) (l : List Entry)
    (found : List ObjectState) (r : List ObjectState × Progress) : Prop where
  grown : ∃ qs : List Entry, qs.Sublist l ∧ (∀ q ∈ qs, Hit I c p q) ∧ r.1 = (qs.map (·.2)).reverse ++ found
  ends : (r.2 = .turned ∧ ∀ q ∈ l, Hit I c p q → q.2 ∈ r.1) ∨
    (r.2 = .complete ∧ ∃ q ∈ l, q.2 ∈ r.1 ∧ ∀ a, I.Solves a c → PointsInto a p q) ∨ r.2 = .cutOff ∧ cuts

theorem Swept.kept {cuts : Prop} {l : List Entry} {found : List ObjectState}
    {r : List ObjectState × Progress} (h : Swept I c p cuts l found r) : ∀ y ∈ found, y ∈ r.1 := by
  obtain ⟨qs, -, -, heq⟩ := h.grown
  intro y hy
  rw [heq]
  exact List.mem_append_right _ hy

theorem Considered.exists_grown {cuts : Prop} {stops : Assignment → Prop} {found : List ObjectState}
    {r : List ObjectState × Progress} (h : Considered I c p cuts stops q found r) :
    ∃ qs : List Entry, qs.Sublist [q] ∧ (∀ z ∈ qs, Hit I c p z) ∧ r.1 = (qs.map (·.2)).reverse ++ found := by
  obtain heq | ⟨heq, hhit⟩ := h.grown
  · exact ⟨[], List.nil_sublist _, by simp, heq⟩
  · exact ⟨[q], .refl _, by simpa using hhit, heq⟩

theorem Considered.onward {cuts : Prop} {stops : Assignment → Prop} {l : List Entry} {found found' : List ObjectState}
    {r : List ObjectState × Progress} (h : Considered I c p cuts stops q found (found', .onward))
    (hr : Swept I c p cuts l found' r) : Swept I c p cuts (q :: l) found r := by
  have hseen : Hit I c p q → q.2 ∈ found' := h.seen.resolve_left (by rintro ⟨⟩)
  constructor
  · obtain ⟨qs, hsub, hqs, heq⟩ := h.exists_grown
    obtain ⟨rs, hsub', hrs, heq'⟩ := hr.grown
    refine ⟨qs ++ rs, hsub.append hsub', List.forall_mem_append.2 ⟨hqs, hrs⟩, ?_⟩
    rw [heq', show found' = _ from heq, List.map_append, List.reverse_append, List.append_assoc]
  · obtain ⟨ht, hall⟩ | ⟨hcomplete, z, hz, hmem, hin⟩ | hcut := hr.ends
    · exact .inl ⟨ht, List.forall_mem_cons.2 ⟨fun hhit ↦ hr.kept _ (hseen hhit), hall⟩⟩
    · exact .inr (.inl ⟨hcomplete, z, List.mem_cons_of_mem q hz, hmem, hin⟩)
    · exact .inr (.inr hcut)

section

variable {fails cuts : Prop} {stop : Expr → Expr → Checked Expr} {stops : Assignment → Prop}
  {limit : Nat} (hc : c.Valid) (hsat : I.Satisfiable c)
include hc hsat

theorem finds_turn (hfails : fails → cuts) (hstop : Stopping stop p stops q) (found old : List ObjectState)
    (hgrown : found = old ∨ found = q.2 :: old ∧ Hit I c p q) (hseen : Hit I c p q → q.2 ∈ found) :
    Finds I fails (consider.turn (σ := σ) c p stop q.2 found) (Considered I c p cuts stops q old) := by
  obtain ⟨e, he, hmeans⟩ := hstop
  refine finds_bind (finds_checked (P := (· = e)) he rfl) ?_
  rintro _ rfl
  refine finds_bind (Solver.answers_mustBeTrue hc hsat hmeans.truth.1) fun r hr ↦ ?_
  split
  · exact finds_pure ⟨hgrown, .inl rfl, by rintro ⟨⟩, by rintro ⟨⟩, fun _ ↦ hfails hr⟩
  · refine finds_pure ⟨hgrown, .inr hseen, by rintro ⟨⟩, fun _ a ha ↦ ?_, by rintro ⟨⟩⟩
    exact (hmeans.val_iff ha.free).1 (hr.1 rfl a ha)
  · exact finds_pure ⟨hgrown, .inr hseen, by rintro ⟨⟩, by rintro ⟨⟩, by rintro ⟨⟩⟩

theorem finds_consider (hfails : fails → cuts) (hlimit : limit ≠ 0 → cuts) (hm : m.Addressable)
    (hq : q ∈ m.entries) (hp : p.IsAddress) (hstop : Stopping stop p stops q) (found : List ObjectState) :
    Finds I fails (consider (σ := σ) c p stop limit q.2 found) (Considered I c p cuts stops q found) := by
  obtain ⟨inside, hinside, hmeans⟩ := hm.exists_pointerInside hq hp
  have hhit : Hit I c p q ↔ ∃ a, I.Solves a c ∧ a.val inside ≠ 0 :=
    exists_congr fun a ↦ and_congr_right fun ha ↦ (hmeans.val_iff ha.free).symm
  refine finds_bind (finds_checked (P := (· = inside)) hinside rfl) ?_
  rintro _ rfl
  refine finds_bind (Solver.answers_mayBeTrue hc hsat hmeans.truth.1) fun r hr ↦ ?_
  rw [← hhit] at hr
  split
  · exact finds_pure ⟨.inl rfl, .inl rfl, by rintro ⟨⟩, by rintro ⟨⟩, fun _ ↦ hfails hr⟩
  · exact finds_turn hc hsat hfails hstop found found (.inl rfl) fun h ↦ absurd (hr.2 h) (by simp)
  · have hgrown : q.2 :: found = found ∨ q.2 :: found = q.2 :: found ∧ Hit I c p q := .inr ⟨rfl, hr.1 rfl⟩
    have hturn := finds_turn (σ := σ) hc hsat hfails hstop (q.2 :: found) found hgrown fun _ ↦ by simp
    have hfull : ∀ {n}, n + 1 = limit →
        Considered I c p cuts stops q found (q.2 :: found, .cutOff) := fun hn ↦
      ⟨hgrown, .inl rfl, by rintro ⟨⟩, by rintro ⟨⟩, fun _ ↦ hlimit (by omega)⟩
    dsimp only
    split
    · refine finds_bind (Solver.answers_mustBeTrue hc hsat hmeans.truth.1) fun r hr ↦ ?_
      split
      · exact finds_pure ⟨hgrown, .inl rfl, by rintro ⟨⟩, by rintro ⟨⟩, fun _ ↦ hfails hr⟩
      · refine finds_pure ⟨hgrown, .inr fun _ ↦ by simp, fun _ a ha ↦ ?_, by rintro ⟨⟩, by rintro ⟨⟩⟩
        exact (hmeans.val_iff ha.free).1 (hr.1 rfl a ha)
      · split
        · rename_i hn
          exact finds_pure (hfull hn)
        · exact hturn
    · split
      · rename_i hn
        exact finds_pure (hfull hn)
      · exact hturn

theorem findsBy_sweep {clock : Nat → Nat} {t : Option Nat} {started : Nat} (hfails : fails → cuts)
    (hlimit : limit ≠ 0 → cuts) (htime : ∀ i, Solver.exceeds t started (clock i) = true → cuts)
    (hm : m.Addressable) (hp : p.IsAddress) {l : List Entry} {stops : Entry → Assignment → Prop}
    (found : List ObjectState) (hl : ∀ q ∈ l, q ∈ m.entries) (hstop : ∀ q ∈ l, Stopping stop p (stops q) q)
    (hbeyond : l.Pairwise fun q r ↦ ∀ a, stops q a → ¬PointsInto a p r) :
    FindsBy I fails clock (sweep (σ := σ) c p stop limit t started l found) (Swept I c p cuts l found) := by
  induction l generalizing found with
  | nil => exact (finds_pure ⟨⟨[], .slnil, by simp, rfl⟩, .inl ⟨rfl, by simp⟩⟩).findsBy clock
  | cons q l ih =>
    rw [List.forall_mem_cons] at hl hstop
    rw [List.pairwise_cons] at hbeyond
    unfold sweep
    refine findsBy_bind (findsBy_now clock) ?_
    rintro _ ⟨i, rfl⟩
    split
    · rename_i hout
      exact (finds_pure ⟨⟨[], List.nil_sublist _, by simp, rfl⟩, .inr (.inr ⟨rfl, htime i hout⟩)⟩).findsBy clock
    refine findsBy_bind ((finds_consider hc hsat hfails hlimit hm hl.1 hp hstop.1 found).findsBy clock) ?_
    rintro ⟨found', progress⟩ hr
    have hstopped : ∃ qs : List Entry, qs.Sublist (q :: l) ∧ (∀ r ∈ qs, Hit I c p r) ∧
        found' = (qs.map (·.2)).reverse ++ found := by
      obtain ⟨qs, hsub, hqs⟩ := hr.exists_grown
      exact ⟨qs, hsub.trans (List.sublist_append_left [q] l), hqs⟩
    cases progress with
    | cutOff => exact (finds_pure ⟨hstopped, .inr (.inr ⟨rfl, hr.cutOff rfl⟩)⟩).findsBy clock
    | complete =>
      have hin := hr.complete rfl
      have hseen := hr.seen.resolve_left (by rintro ⟨⟩)
      obtain ⟨a, ha⟩ := hsat
      exact (finds_pure ⟨hstopped, .inr (.inl ⟨rfl, q, by simp, hseen ⟨a, ha, hin a ha⟩, hin⟩)⟩).findsBy clock
    | turned =>
      have hmissed : ∀ r ∈ l, Hit I c p r → r.2 ∈ found' := by
        rintro r hmem ⟨a, ha, hin⟩
        exact (hbeyond.1 r hmem a (hr.turned rfl a ha) hin).elim
      exact (finds_pure ⟨hstopped, .inl ⟨rfl, List.forall_mem_cons.2
        ⟨hr.seen.resolve_left (by rintro ⟨⟩), hmissed⟩⟩⟩).findsBy clock
    | onward => exact (ih found' hl.2 hstop.2 hbeyond.2).mono fun _ hr' ↦ hr.onward hr'

end

section

variable (hm : m.Addressable)
include hm

theorem stopping_uge (hp : p.IsAddress) (hq : q ∈ m.entries) :
    Stopping Expr.mkUge p (q.1.address ≤ ·.val p) q := by
  obtain ⟨e, he, hmeans⟩ := exists_mkUge hp.wellFormed (isAddress_pointer q.2.object.address).wellFormed
    (hp.width_eq.trans (isAddress_pointer _).width_eq.symm)
  refine ⟨e, he, hmeans.congr fun ha ↦ ?_⟩
  rw [hm.address_eq hq, Assignment.val_pointer (hm.address_lt hq)]

theorem stopping_ult (hp : p.IsAddress) (hq : q ∈ m.entries) :
    Stopping Expr.mkUlt p (·.val p < q.1.address) q := by
  obtain ⟨e, he, hmeans⟩ := exists_mkUlt hp.wellFormed (isAddress_pointer q.2.object.address).wellFormed
    (hp.width_eq.trans (isAddress_pointer _).width_eq.symm)
  refine ⟨e, he, hmeans.congr fun ha ↦ ?_⟩
  rw [hm.address_eq hq, Assignment.val_pointer (hm.address_lt hq)]

theorem pairwise_down (key : ObjectKey) : (m.objects.downFrom key).Pairwise fun q r ↦
    ∀ a : Assignment, q.1.address ≤ a.val p → ¬PointsInto a p r := by
  refine (AvlMap.pairwise_downFrom hm.spaced.sorted hm.spaced.apart).imp fun hqr a hle hin ↦ ?_
  rw [PointsInto] at hin
  omega

theorem pairwise_up (key : ObjectKey) : (m.objects.upAfter key).Pairwise fun q r ↦
    ∀ a : Assignment, a.val p < q.1.address → ¬PointsInto a p r := by
  refine (AvlMap.pairwise_upAfter hm.spaced.sorted hm.spaced.ascending).imp fun hqr a hlt hin ↦ ?_
  rw [PointsInto] at hin
  omega

theorem mem_of_mem_downFrom (key : ObjectKey) : ∀ q ∈ m.objects.downFrom key, q ∈ m.entries :=
  fun _ hq ↦ ((AvlMap.mem_downFrom hm.spaced.sorted).1 hq).1

theorem mem_of_mem_upAfter (key : ObjectKey) : ∀ q ∈ m.objects.upAfter key, q ∈ m.entries :=
  fun _ hq ↦ ((AvlMap.mem_upAfter hm.spaced.sorted).1 hq).1

end

theorem nodup_downFrom (hm : m.Addressable) (key : ObjectKey) : (m.objects.downFrom key).Nodup := by
  refine (AvlMap.pairwise_downFrom hm.spaced.sorted hm.spaced.ascending).imp ?_
  rintro q _ hlt rfl
  exact Nat.lt_irrefl _ hlt

theorem nodup_upAfter (hm : m.Addressable) (key : ObjectKey) : (m.objects.upAfter key).Nodup := by
  refine (AvlMap.pairwise_upAfter hm.spaced.sorted hm.spaced.ascending).imp ?_
  rintro q _ hlt rfl
  exact Nat.lt_irrefl _ hlt

/-- A search for all objects finds each object at most once and only if the pointer can hit it, and finds
all of these unless it is cut off. -/
structure Resolved (I : Inputs) (m : AddressSpace) (c : ConstraintSet) (p : Expr) (cuts : Prop)
    (r : Resolution) : Prop where
  grown : ∃ qs : List Entry, qs.Nodup ∧ (∀ q ∈ qs, q ∈ m.entries ∧ Hit I c p q) ∧ r.objects = qs.map (·.2)
  covers : r.incomplete = false → ∀ q ∈ m.entries, Hit I c p q → q.2 ∈ r.objects
  cutOff : r.incomplete = true → cuts

theorem Resolved.hit {cuts : Prop} {r : Resolution} (h : Resolved I m c p cuts r) :
    ∀ y ∈ r.objects, ∃ q ∈ m.entries, y = q.2 ∧ Hit I c p q := by
  obtain ⟨qs, -, hqs, heq⟩ := h.grown
  intro y hy
  rw [heq, List.mem_map] at hy
  obtain ⟨q, hq, rfl⟩ := hy
  exact ⟨q, (hqs q hq).1, rfl, (hqs q hq).2⟩

/-- A search for one object finds one that the pointer can hit, if there is one. -/
structure Picked (I : Inputs) (c : ConstraintSet) (p : Expr) (l : List Entry) (o : Option ObjectState) :
    Prop where
  hit : ∀ y, o = some y → ∃ q ∈ l, y = q.2 ∧ Hit I c p q
  missed : o = none → ∀ q ∈ l, ¬Hit I c p q

section

variable {fails cuts : Prop} {limit : Nat} (hc : c.Valid) (hsat : I.Satisfiable c) (hm : m.Addressable)
  (hp : p.IsAddress)
include hc hsat hm hp

omit hc hp in
theorem picked_resolveOne {n : Nat} (hn : p.value? = some n) : Picked I c p m.entries (m.resolveOne n) := by
  rw [Expr.value?_eq_some] at hn
  have hval : ∀ a : Assignment, a.val p = n := fun a ↦ by rw [hn, Assignment.val_const]
  refine ⟨fun y hy ↦ ?_, ?_⟩
  · obtain ⟨q, hq, rfl, hin⟩ := hm.resolveOne_eq_some_iff.1 hy
    obtain ⟨a, ha⟩ := hsat
    exact ⟨q, hq, rfl, a, ha, by rwa [PointsInto, hval]⟩
  · rintro hnone q hq ⟨a, ha, hin⟩
    rw [PointsInto, hval] at hin
    cases hnone.symm.trans (hm.resolveOne_eq_some hq hin)

omit hc hsat hp in
theorem resolved_of_swept {key : ObjectKey} {r₁ r₂ : List ObjectState × Progress}
    (hdown : Swept I c p cuts (m.objects.downFrom key) [] r₁)
    (hup : r₁.2 = .turned → Swept I c p cuts (m.objects.upAfter key) r₁.1 r₂)
    (hstays : r₁.2 ≠ .turned → r₂ = r₁) :
    Resolved I m c p cuts ⟨r₂.1.reverse, r₂.2 = .cutOff⟩ := by
  have hmem := mem_of_mem_downFrom hm key
  obtain ⟨qs, hsub, hqs, heq⟩ := hdown.grown
  rw [List.append_nil] at heq
  by_cases hturned : r₁.2 = .turned
  · have hmem' := mem_of_mem_upAfter hm key
    have hup := hup hturned
    obtain ⟨rs, hsub', hrs, heq'⟩ := hup.grown
    have hapart : ∀ q ∈ qs, ∀ r ∈ rs, q ≠ r := by
      rintro q hq _ hr rfl
      exact ((AvlMap.mem_downFrom hm.spaced.sorted).1 (hsub.subset hq)).2
        ((AvlMap.mem_upAfter hm.spaced.sorted).1 (hsub'.subset hr)).2
    refine ⟨⟨qs ++ rs, ?_, ?_, ?_⟩, fun hcomplete q hq hhit ↦ ?_, fun hcut ↦ ?_⟩
    · exact List.nodup_append.2
        ⟨(nodup_downFrom hm key).sublist hsub, (nodup_upAfter hm key).sublist hsub', hapart⟩
    · exact List.forall_mem_append.2 ⟨fun q hq ↦ ⟨hmem q (hsub.subset hq), hqs q hq⟩,
        fun q hq ↦ ⟨hmem' q (hsub'.subset hq), hrs q hq⟩⟩
    · rw [heq', heq, List.reverse_append, List.reverse_reverse, List.reverse_reverse, List.map_append]
    · rw [List.mem_reverse]
      by_cases hgt : compare q.1 key = .gt
      · obtain ⟨-, hall⟩ | ⟨-, z, hz, hzmem, hzin⟩ | ⟨hcut, -⟩ := hup.ends
        · exact hall q ((AvlMap.mem_upAfter hm.spaced.sorted).2 ⟨hq, hgt⟩) hhit
        · obtain ⟨a, ha, hin⟩ := hhit
          obtain rfl := hm.spaced.eq_of_contains hq (hmem' z hz) hin (hzin a ha)
          exact hzmem
        · simp [hcut] at hcomplete
      · apply hup.kept
        obtain ⟨-, hall⟩ | ⟨h, -⟩ | ⟨h, -⟩ := hdown.ends
        · exact hall q ((AvlMap.mem_downFrom hm.spaced.sorted).2 ⟨hq, hgt⟩) hhit
        · cases hturned.symm.trans h
        · cases hturned.symm.trans h
    · obtain ⟨h, -⟩ | ⟨h, -⟩ | ⟨-, h⟩ := hup.ends
      · simp [h] at hcut
      · simp [h] at hcut
      · exact h
  · rw [hstays hturned]
    refine ⟨⟨qs, (nodup_downFrom hm key).sublist hsub, fun q hq ↦ ⟨hmem q (hsub.subset hq), hqs q hq⟩, ?_⟩,
      fun hcomplete q hq hhit ↦ ?_, fun hcut ↦ ?_⟩
    · rw [heq, List.reverse_reverse]
    -- the only object that is possible was found
    · rw [List.mem_reverse]
      obtain ⟨h, -⟩ | ⟨-, z, hz, hzmem, hzin⟩ | ⟨h, -⟩ := hdown.ends
      · exact absurd h hturned
      · obtain ⟨a, ha, hin⟩ := hhit
        obtain rfl := hm.spaced.eq_of_contains hq (hmem z hz) hin (hzin a ha)
        exact hzmem
      · simp [h] at hcomplete
    · obtain ⟨h, -⟩ | ⟨h, -⟩ | ⟨-, h⟩ := hdown.ends
      · exact absurd h hturned
      · simp [h] at hcut
      · exact h

theorem findsBy_resolve {clock : Nat → Nat} {t : Option Nat} (hfails : fails → cuts) (hlimit : limit ≠ 0 → cuts)
    (htime : ∀ i j, Solver.exceeds t (clock i) (clock j) = true → cuts) :
    FindsBy I fails clock (m.resolve (σ := σ) c p limit t) (Resolved I m c p cuts) := by
  unfold resolve
  split
  · rename_i n hn
    have hpicked := picked_resolveOne (I := I) (c := c) hsat hm hn
    refine (finds_pure ⟨?_, fun _ q hq hhit ↦ ?_, by rintro ⟨⟩⟩).findsBy clock
    · cases hone : m.resolveOne n with
      | none => exact ⟨[], by simp, by simp, rfl⟩
      | some x =>
        obtain ⟨q, hq, rfl, hhit⟩ := hpicked.hit x hone
        exact ⟨[q], by simp, by simpa using ⟨hq, hhit⟩, rfl⟩
    · rw [Option.mem_toList]
      cases hone : m.resolveOne n with
      | none => exact (hpicked.missed hone q hq hhit).elim
      | some x =>
        obtain ⟨a, ha, hin⟩ := hhit
        rw [PointsInto, Expr.value?_eq_some.1 hn, Assignment.val_const] at hin
        exact hone.symm.trans (hm.resolveOne_eq_some hq hin)
  · refine findsBy_bind (findsBy_now clock) ?_
    rintro _ ⟨i, rfl⟩
    refine findsBy_bind (Finds.findsBy (Solver.answers_value hc hsat hp.wellFormed) clock) fun r hr ↦ ?_
    split
    · exact (finds_pure ⟨⟨[], by simp, by simp, rfl⟩, by rintro ⟨⟩, fun _ ↦ hfails hr⟩).findsBy clock
    · rename_i example_
      dsimp only
      generalize ObjectKey.last (example_.value?.getD 0) = key
      have hdown := mem_of_mem_downFrom hm key
      have hup := mem_of_mem_upAfter hm key
      refine findsBy_bind (findsBy_sweep hc hsat hfails hlimit (htime i) hm hp [] hdown
        (fun q hq ↦ stopping_uge hm hp (hdown q hq)) (pairwise_down hm key)) fun r₁ hr₁ ↦ ?_
      split
      · rename_i hturned
        refine findsBy_bind (findsBy_sweep hc hsat hfails hlimit (htime i) hm hp r₁.1 hup
          (fun q hq ↦ stopping_ult hm hp (hup q hq)) (pairwise_up hm key)) fun r₂ hr₂ ↦ ?_
        have hresolved := resolved_of_swept hm hr₁ (fun _ ↦ hr₂) fun h ↦ absurd hturned h
        exact (finds_pure hresolved).findsBy clock
      · rename_i hturned
        have hresolved := resolved_of_swept hm hr₁ (fun h ↦ absurd h hturned) fun _ ↦ rfl
        exact (finds_pure hresolved).findsBy clock

omit hsat hm hp hc in
theorem run_sweep_of_late {stop : Expr → Expr → Checked Expr} {started : Nat} {l : List Entry}
    {found : List ObjectState} {s : Solver σ} {t : Option Nat} (hl : l ≠ [])
    (hlate : Solver.exceeds t started (s.clock s.readings) = true) :
    (sweep c p stop limit t started l found).run s =
      .ok ((found, Progress.cutOff), { s with readings := s.readings + 1 }) := by
  cases l with
  | nil => exact absurd rfl hl
  | cons q l =>
    change (ite (Solver.exceeds t started (s.clock s.readings) = true) (pure (found, Progress.cutOff)) _ :
      StateT (Solver σ) Checked _).run { s with readings := s.readings + 1 } = _
    rw [if_pos hlate]
    rfl

theorem exists_run_resolve_of_late {s : Solver σ} (limit : Nat) (t : Option Nat) (hb : s.backend.Exact I False)
    (hunknown : p.value? = none) (hbound : m.entries ≠ [])
    (hlate : ∀ i j, i < j → Solver.exceeds t (s.clock i) (s.clock j) = true) :
    ∃ s', (m.resolve c p limit t).run s = .ok ({ incomplete := true }, s') ∧ s.Same s' := by
  have hread : s.Same { s with readings := s.readings + 1 } := ⟨rfl, rfl, rfl, Nat.le_succ _⟩
  obtain ⟨r, s', hvalue, hsame, hr⟩ :=
    Solver.answers_value hc hsat hp.wellFormed { s with readings := s.readings + 1 } hb
  have hover : Solver.exceeds t (s.clock s.readings) (s'.clock s'.readings) = true := by
    rw [hsame.clock_eq]
    exact hlate _ _ hsame.readings_le
  refine ⟨{ s' with readings := s'.readings + 1 }, ?_, hread.trans (hsame.trans ⟨rfl, rfl, rfl, Nat.le_succ _⟩)⟩
  cases r with
  | error _ => exact hr.elim
  | ok v =>
    rw [resolve, hunknown]
    change ((Solver.value c p).attempt.run { s with readings := s.readings + 1 } >>= _) = _
    change (Solver.value c p).attempt.run { s with readings := s.readings + 1 } = _ at hvalue
    rw [hvalue, Checked.ok_bind]
    dsimp only
    by_cases hdown : m.objects.downFrom (.last (v.value?.getD 0)) = []
    · have hup : m.objects.upAfter (.last (v.value?.getD 0)) ≠ [] := by
        obtain ⟨q, hq⟩ := List.exists_mem_of_ne_nil _ hbound
        by_cases hgt : compare q.1 (.last (v.value?.getD 0)) = .gt
        · exact List.ne_nil_of_mem ((AvlMap.mem_upAfter hm.spaced.sorted).2 ⟨hq, hgt⟩)
        · exact absurd ((AvlMap.mem_downFrom hm.spaced.sorted).2 ⟨hq, hgt⟩) (by rw [hdown]; exact List.not_mem_nil)
      rw [hdown]
      change ((sweep c p Expr.mkUlt limit t (s.clock s.readings) _ []).run s' >>= _) = _
      rw [run_sweep_of_late hup hover]
      rfl
    · change ((sweep c p Expr.mkUge limit t (s.clock s.readings) _ []).run s' >>= _) = _
      rw [run_sweep_of_late hdown hover]
      rfl

theorem answers_firstPossible {stop : Expr → Expr → Checked Expr} {l : List Entry}
    {stops : Entry → Assignment → Prop} (hl : ∀ q ∈ l, q ∈ m.entries)
    (hstop : ∀ q ∈ l, Stopping stop p (stops q) q)
    (hbeyond : l.Pairwise fun q r ↦ ∀ a, stops q a → ¬PointsInto a p r) :
    (firstPossible c p stop l : Ask σ _).Answers I fails (Picked I c p l) := by
  induction l with
  | nil => exact Ask.answers_pure ⟨by rintro _ ⟨⟩, by simp⟩
  | cons q l ih =>
    rw [List.forall_mem_cons] at hl hstop
    rw [List.pairwise_cons] at hbeyond
    obtain ⟨inside, hinside, hmeans⟩ := hm.exists_pointerInside hl.1 hp
    obtain ⟨past, hpast, hpmeans⟩ := hstop.1
    refine Ask.answers_bind (Ask.answers_checked (P := (· = inside)) hinside rfl) ?_
    rintro _ rfl
    refine Ask.answers_bind (Solver.answers_mayBeTrue hc hsat hmeans.truth.1) fun v hv ↦ ?_
    have hhit : v = true ↔ Hit I c p q :=
      hv.trans (exists_congr fun a ↦ and_congr_right fun ha ↦ hmeans.val_iff ha.free)
    split
    · rename_i htrue
      refine Ask.answers_pure ⟨?_, by rintro ⟨⟩⟩
      rintro _ ⟨⟩
      exact ⟨q, by simp, rfl, hhit.1 htrue⟩
    · rename_i hfalse
      have hmissed : ¬Hit I c p q := fun h ↦ hfalse (hhit.2 h)
      refine Ask.answers_bind (Ask.answers_checked (P := (· = past)) hpast rfl) ?_
      rintro _ rfl
      refine Ask.answers_bind (Solver.answers_mustBeTrue hc hsat hpmeans.truth.1) fun v hv ↦ ?_
      split
      · rename_i hstops
        refine Ask.answers_pure ⟨by rintro _ ⟨⟩, fun _ ↦ List.forall_mem_cons.2 ⟨hmissed, ?_⟩⟩
        rintro r hmem ⟨a, ha, hin⟩
        exact hbeyond.1 r hmem a ((hpmeans.val_iff ha.free).1 (hv.1 hstops a ha)) hin
      · refine (ih hl.2 hstop.2 hbeyond.2).mono fun o ho ↦ ⟨fun y hy ↦ ?_, fun hnone ↦ ?_⟩
        · obtain ⟨r, hr, hy⟩ := ho.hit y hy
          exact ⟨r, by simp [hr], hy⟩
        · exact List.forall_mem_cons.2 ⟨hmissed, ho.missed hnone⟩

theorem answers_resolveSymbolic :
    (m.resolveSymbolic c p : Ask σ _).Answers I fails (Picked I c p m.entries) := by
  unfold resolveSymbolic
  split
  · rename_i hn
    exact Ask.answers_pure (picked_resolveOne hsat hm hn)
  · refine Ask.answers_bind (Solver.answers_value hc hsat hp.wellFormed) fun v hv ↦ ?_
    obtain ⟨n, hn⟩ := Expr.isConst_iff.1 hv.isConst
    rw [show v.value?.getD 0 = n by rw [hn]; rfl]
    dsimp only
    have hdown := mem_of_mem_downFrom hm (.last n)
    have hup := mem_of_mem_upAfter hm (.last n)
    split
    · rename_i x hsome
      refine Ask.answers_pure ⟨?_, by rintro ⟨⟩⟩
      rintro _ ⟨⟩
      obtain ⟨q, hq, rfl, hin⟩ := hm.resolveOne_eq_some_iff.1 hsome
      obtain ⟨a, ha, hval⟩ := hv.attained
      rw [hn, Assignment.val_const] at hval
      exact ⟨q, hq, rfl, a, ha, by rwa [PointsInto, hval]⟩
    · refine Ask.answers_bind (answers_firstPossible hc hsat hm hp hdown
        (fun q hq ↦ stopping_uge hm hp (hdown q hq)) (pairwise_down hm _)) fun o ho ↦ ?_
      split
      · refine Ask.answers_pure ⟨fun y hy ↦ ?_, by rintro ⟨⟩⟩
        obtain ⟨q, hq, hy⟩ := ho.hit y hy
        exact ⟨q, hdown q hq, hy⟩
      · refine (answers_firstPossible hc hsat hm hp hup (fun q hq ↦ stopping_ult hm hp (hup q hq))
          (pairwise_up hm _)).mono fun o' ho' ↦ ⟨fun y hy ↦ ?_, fun hnone q hq ↦ ?_⟩
        · obtain ⟨q, hq, hy⟩ := ho'.hit y hy
          exact ⟨q, hup q hq, hy⟩
        · by_cases hgt : compare q.1 (.last n) = .gt
          · exact ho'.missed hnone q ((AvlMap.mem_upAfter hm.spaced.sorted).2 ⟨hq, hgt⟩)
          · exact ho.missed rfl q ((AvlMap.mem_downFrom hm.spaced.sorted).2 ⟨hq, hgt⟩)

end

/-! ## What searches find -/

theorem Addressable.contains_iff (h : m.Addressable) (hq : q ∈ m.entries) :
    q.2.object.contains n = true ↔ q.1.address ≤ n ∧ n < q.stop := by
  rw [MemoryObject.contains_iff (h.object_stop hq), h.address_eq hq, Entry.stop]

theorem mem_toList : x ∈ m.toList ↔ ∃ q ∈ m.entries, q.2 = x := List.mem_map

theorem Addressable.hit_iff (h : m.Addressable) (hq : q ∈ m.entries) :
    Hit I c p q ↔ ∃ a, I.Solves a c ∧ q.2.object.contains (a.val p) = true :=
  exists_congr fun _ ↦ and_congr_right fun _ ↦ (h.contains_iff hq).symm

theorem Addressable.resolveOne_iff (h : m.Addressable) :
    m.resolveOne n = some x ↔ x ∈ m.toList ∧ x.object.contains n = true := by
  rw [h.resolveOne_eq_some_iff, mem_toList]
  constructor
  · rintro ⟨q, hq, rfl, hin⟩
    exact ⟨⟨q, hq, rfl⟩, (h.contains_iff hq).2 hin⟩
  · rintro ⟨⟨q, hq, rfl⟩, hcontains⟩
    exact ⟨q, hq, rfl, (h.contains_iff hq).1 hcontains⟩

/-- The object is bound, and contains the pointer in some solution. -/
def MayHit (I : Inputs) (m : AddressSpace) (c : ConstraintSet) (p : Expr) (x : ObjectState) : Prop :=
  x ∈ m.toList ∧ ∃ a, I.Solves a c ∧ x.object.contains (a.val p) = true

theorem Addressable.mayHit_iff (h : m.Addressable) :
    m.MayHit I c p x ↔ ∃ q ∈ m.entries, x = q.2 ∧ Hit I c p q := by
  rw [MayHit, mem_toList]
  constructor
  · rintro ⟨⟨q, hq, rfl⟩, hin⟩
    exact ⟨q, hq, rfl, (h.hit_iff hq).2 hin⟩
  · rintro ⟨q, hq, rfl, hhit⟩
    exact ⟨⟨q, hq, rfl⟩, (h.hit_iff hq).1 hhit⟩

theorem Addressable.nodup_addresses (h : m.Addressable) {qs : List Entry} (hnodup : qs.Nodup)
    (hqs : ∀ q ∈ qs, q ∈ m.entries) : (qs.map (·.2.object.address)).Nodup := by
  refine List.pairwise_map.2 (hnodup.imp_of_mem fun {q r} hq hr hne ↦ ?_)
  rw [h.address_eq (hqs q hq), h.address_eq (hqs r hr)]
  obtain rfl | hlt | hlt := pairwise_cases h.spaced.ascending (hqs q hq) (hqs r hr)
  · exact (hne rfl).elim
  · omega
  · omega

/-- Searches find exactly the objects that a pointer may hit. A search for all of them, whatever its limits
are, finds no other object and none twice, and misses none unless it says that it is incomplete. A known address
is found in the one object that contains it. A search for one object that is not given up finds one exactly if
there is one. -/
theorem searches_exact {fails : Prop} (hc : c.Valid) (hsat : I.Satisfiable c) (hm : m.Addressable)
    (hp : p.IsAddress) (limit : Nat) (t : Option Nat) :
    (Finds I fails (m.resolve (σ := σ) c p limit t) fun r ↦ (∀ x ∈ r.objects, m.MayHit I c p x) ∧
      (r.objects.map (·.object.address)).Nodup ∧
      (r.incomplete = false → ∀ x, m.MayHit I c p x → x ∈ r.objects)) ∧
    (∀ n x, m.resolveOne n = some x ↔ x ∈ m.toList ∧ x.object.contains n = true) ∧
    (m.resolveSymbolic c p : Ask σ _).Answers I fails fun o ↦
      (∀ x, o = some x → m.MayHit I c p x) ∧ (o = none ↔ ∀ x, ¬m.MayHit I c p x) := by
  refine ⟨?_, fun n x ↦ hm.resolveOne_iff, ?_⟩
  · have hresolve : Finds I fails (m.resolve (σ := σ) c p limit t) (Resolved I m c p True) :=
      finds_of_findsBy fun _ ↦
        findsBy_resolve hc hsat hm hp (fun _ ↦ trivial) (fun _ ↦ trivial) fun _ _ _ ↦ trivial
    refine hresolve.mono fun r hr ↦ ⟨fun x hx ↦ hm.mayHit_iff.2 (hr.hit x hx), ?_, fun hcomplete x hx ↦ ?_⟩
    · obtain ⟨qs, hnodup, hqs, heq⟩ := hr.grown
      rw [heq, List.map_map]
      exact hm.nodup_addresses hnodup fun q hq ↦ (hqs q hq).1
    · obtain ⟨q, hq, rfl, hhit⟩ := hm.mayHit_iff.1 hx
      exact hr.covers hcomplete q hq hhit
  · refine (answers_resolveSymbolic hc hsat hm hp).mono fun o ho ↦ ⟨fun x hx ↦ ?_, fun hnone x hx ↦ ?_, ?_⟩
    · exact hm.mayHit_iff.2 (ho.hit x hx)
    · obtain ⟨q, hq, rfl, hhit⟩ := hm.mayHit_iff.1 hx
      exact ho.missed hnone q hq hhit
    · intro hnone
      cases o with
      | none => rfl
      | some x => exact (hnone x (hm.mayHit_iff.2 (ho.hit x rfl))).elim

/-- The address space where nothing else is bound. -/
def only (x : ObjectState) : AddressSpace where
  objects := ⟨.node 1 x.object.key x .leaf .leaf, 1⟩

theorem addressable_only {x : ObjectState} (hstop : x.object.address + max x.object.size 1 ≤ wordLimit)
    (hsize : x.object.size < wordLimit) (hid : x.object.id < wordLimit) : (only x).Addressable := by
  have hentries : (only x).entries = [(x.object.key, x)] := rfl
  refine ⟨⟨by simp [hentries], by simp [hentries]⟩, ?_, ?_, ?_⟩
  · rw [hentries, List.forall_mem_singleton]
    exact hstop
  · rw [hentries, List.forall_mem_singleton]
    exact hsize
  · rw [hentries, List.forall_mem_singleton]
    exact hid

def fourBytesAt (id address : Nat) : ObjectState where
  object := { id, address, size := 4, name := "four" }
  bytes := ⟨#[5, 6, 7, 8]⟩

def twoObjects : AddressSpace where
  objects := ⟨.node 2 (fourBytesAt 1 4096).object.key (fourBytesAt 1 4096) .leaf
    (.node 1 (fourBytesAt 2 4104).object.key (fourBytesAt 2 4104) .leaf .leaf), 2⟩

theorem addressable_twoObjects : twoObjects.Addressable := by
  have hentries : twoObjects.entries = [((fourBytesAt 1 4096).object.key, fourBytesAt 1 4096),
    ((fourBytesAt 2 4104).object.key, fourBytesAt 2 4104)] := rfl
  constructor
  · exact ⟨by simp [hentries], by simp [hentries, Entry.stop, fourBytesAt, MemoryObject.key]⟩
  · simp [hentries, Entry.stop, fourBytesAt, MemoryObject.key, wordLimit_eq]
  · simp [hentries, fourBytesAt, wordLimit_eq]
  · simp [hentries, fourBytesAt, MemoryObject.key, wordLimit_eq]

/-- A pointer to one of the 256 bytes from the start of the first object on. -/
def aroundObjects : Expr :=
  .binary .add (.pointer 4096) (.zext (.read (.base (.symbolic "x" 1)) (.const 0 32)) 64)

theorem isAddress_aroundObjects : aroundObjects.IsAddress := by
  refine ⟨?_, rfl⟩
  simp [aroundObjects, WellFormed, Updates.WellFormed, Expr.pointer, Expr.word, trunc_eq]

/-- A search among two objects that is cut off after the first one that it finds. -/
theorem searches_exact_twoObjects :
    (Finds .all True (twoObjects.resolve (σ := Unit) {} aroundObjects 1 none) fun r ↦
      (∀ x ∈ r.objects, twoObjects.MayHit .all {} aroundObjects x) ∧
      (r.objects.map (·.object.address)).Nodup ∧
      (r.incomplete = false → ∀ x, twoObjects.MayHit .all {} aroundObjects x → x ∈ r.objects)) ∧
    (∀ n x, twoObjects.resolveOne n = some x ↔ x ∈ twoObjects.toList ∧ x.object.contains n = true) ∧
    (twoObjects.resolveSymbolic {} aroundObjects : Ask Unit _).Answers .all True fun o ↦
      (∀ x, o = some x → twoObjects.MayHit .all {} aroundObjects x) ∧
        (o = none ↔ ∀ x, ¬twoObjects.MayHit .all {} aroundObjects x) :=
  searches_exact ConstraintSet.valid_empty (Inputs.satisfiable_empty _) addressable_twoObjects
    isAddress_aroundObjects 1 none

end AddressSpace

end Symex
