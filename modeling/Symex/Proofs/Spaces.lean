import Symex.Proofs.Images
import Symex.Proofs.SearchTrees
import Symex.Memory.AddressSpace

namespace Symex

namespace ObjectKey

variable {k l : ObjectKey}

theorem compare_eq_lex (k l : ObjectKey) :
    compare k l = compareLex (compareOn ObjectKey.address) (compareOn ObjectKey.id) k l := by
  change instOrdObjectKey.ord k l = (compare k.address l.address).then (compare k.id l.id)
  cases k with
  | mk a i =>
    cases l with
    | mk b j =>
      rw [instOrdObjectKey.ord]
      cases compare a b <;> cases compare i j <;> rfl

theorem compare_fun_eq :
    (compare : ObjectKey → ObjectKey → Ordering) =
      compareLex (compareOn ObjectKey.address) (compareOn ObjectKey.id) := by
  funext k l
  exact compare_eq_lex k l

instance : Std.TransOrd ObjectKey := by
  rw [Std.TransOrd, compare_fun_eq]
  infer_instance

instance : Std.LawfulEqOrd ObjectKey where
  eq_of_compare {k l} h := by
    rw [compare_eq_lex] at h
    have h : (compare k.address l.address).then (compare k.id l.id) = .eq := h
    rw [Ordering.then_eq_eq, Nat.compare_eq_eq, Nat.compare_eq_eq] at h
    cases k with
    | mk a i =>
      cases l with
      | mk b j => simp_all

theorem compare_of_lt (h : k.address < l.address) : compare k l = .lt := by
  rw [compare_eq_lex]
  change (compare k.address l.address).then (compare k.id l.id) = .lt
  rw [Nat.compare_eq_lt.2 h]
  rfl

theorem compare_of_gt (h : l.address < k.address) : compare k l = .gt := by
  rw [compare_eq_lex]
  change (compare k.address l.address).then (compare k.id l.id) = .gt
  rw [Nat.compare_eq_gt.2 h]
  rfl

theorem compare_last_ne_gt {a : Nat} (hid : k.id < wordLimit) :
    compare k (last a) ≠ .gt ↔ k.address ≤ a := by
  constructor
  · intro h
    refine Nat.le_of_not_lt fun hlt ↦ h (compare_of_gt hlt)
  · intro h heq
    rw [compare_eq_lex] at heq
    have heq : (compare k.address a).then (compare k.id (wordLimit - 1)) = .gt := heq
    rw [Ordering.then_eq_gt, Nat.compare_eq_gt, Nat.compare_eq_eq, Nat.compare_eq_gt] at heq
    omega

end ObjectKey

/-! ## Lists in ascending order -/

theorem filter_lt_append_filter_gt {α : Type} {f : α → Nat} {l : List α} {n : Nat}
    (h : l.Pairwise fun p q ↦ f p < f q) :
    l.filter (f · < n) ++ l.filter (n < f ·) = l.filter (f · ≠ n) := by
  induction l with
  | nil => rfl
  | cons x xs ih =>
    rw [List.pairwise_cons] at h
    simp only [List.filter_cons]
    by_cases hx : f x < n
    · have hne : f x ≠ n := Nat.ne_of_lt hx
      have hgt : ¬n < f x := Nat.not_lt.2 (Nat.le_of_lt hx)
      simpa [hx, hne, hgt] using ih h.2
    · have hnone : xs.filter (f · < n) = [] := by
        rw [List.filter_eq_nil_iff]
        intro y hy
        have := h.1 y hy
        simp only [decide_eq_true_eq]
        omega
      rw [hnone, List.nil_append] at ih
      by_cases hn : f x = n
      · simpa [hx, hn, hnone] using ih h.2
      · have hgt : n < f x := by omega
        simpa [hx, hn, hgt, hnone] using ih h.2

/-! ## Spaces -/

/-- An object bound in memory, with its key. -/
abbrev Entry := ObjectKey × ObjectState

/-- The first address after an object. An empty object takes one address. -/
def Entry.stop (p : Entry) : Nat := p.1.address + max p.2.object.size 1

namespace AddressSpace

def entries (m : AddressSpace) : List Entry := m.objects.toList

theorem toList_eq (m : AddressSpace) : m.toList = m.entries.map (·.2) := rfl

/-- Objects are found by their keys, and none of them overlaps another one. -/
structure Spaced (m : AddressSpace) : Prop where
  keyed : ∀ p ∈ m.entries, p.1 = p.2.object.key
  apart : m.entries.Pairwise fun p q ↦ p.stop ≤ q.1.address

variable {m m₁ : AddressSpace} {o : MemoryObject} {x y : ObjectState} {p q : Entry}

theorem Spaced.ascending (h : m.Spaced) : m.entries.Pairwise fun p q ↦ p.1.address < q.1.address := by
  refine h.apart.imp fun {p q} hpq ↦ ?_
  have : p.1.address < p.stop := by rw [Entry.stop]; omega
  omega

theorem Spaced.sorted (h : m.Spaced) : m.objects.Sorted :=
  h.ascending.imp fun hpq ↦ ObjectKey.compare_of_lt hpq

theorem Spaced.eq_of_address_eq (h : m.Spaced) (hp : p ∈ m.entries) (hq : q ∈ m.entries)
    (heq : p.1.address = q.1.address) : p = q := by
  obtain rfl | hlt | hlt := pairwise_cases h.ascending hp hq
  · rfl
  · omega
  · omega

theorem Spaced.find?_eq_some (h : m.Spaced) : m.find? o = some x ↔ (o.key, x) ∈ m.entries :=
  AvlMap.get?_eq_some h.sorted

/-! ### Changes -/

theorem Spaced.key_eq_iff (h : m.Spaced) (ho : (o.key, x) ∈ m.entries) (hp : p ∈ m.entries) :
    p.1 = o.key ↔ p.1.address = o.address := by
  constructor
  · intro heq
    rw [heq, MemoryObject.key]
  · intro heq
    rw [h.eq_of_address_eq hp ho heq]

theorem Spaced.compare_eq (h : m.Spaced) (ho : (o.key, x) ∈ m.entries) (hp : p ∈ m.entries) :
    compare p.1 o.key = compare p.1.address o.address := by
  by_cases heq : p.1.address = o.address
  · rw [(h.key_eq_iff ho hp).2 heq]
    simp [MemoryObject.key]
  · obtain hlt | hgt := Nat.lt_or_gt_of_ne heq
    · rw [ObjectKey.compare_of_lt hlt, Nat.compare_eq_lt.2 hlt]
    · rw [ObjectKey.compare_of_gt hgt, Nat.compare_eq_gt.2 hgt]

theorem below_eq_filter {key : ObjectKey} {l : List Entry}
    (h : ∀ p ∈ l, compare p.1 key = compare p.1.address key.address) :
    Entries.below key l = l.filter (·.1.address < key.address) := by
  rw [Entries.below]
  refine List.filter_congr fun p hp ↦ ?_
  rw [h p hp]
  by_cases hlt : p.1.address < key.address
  · simp [hlt, Nat.compare_eq_lt.2 hlt]
  · have hne : compare p.1.address key.address ≠ .lt := fun hc ↦ hlt (Nat.compare_eq_lt.1 hc)
    simp [hlt, hne]

theorem above_eq_filter {key : ObjectKey} {l : List Entry}
    (h : ∀ p ∈ l, compare p.1 key = compare p.1.address key.address) :
    Entries.above key l = l.filter (key.address < ·.1.address) := by
  rw [Entries.above]
  refine List.filter_congr fun p hp ↦ ?_
  rw [h p hp]
  by_cases hlt : key.address < p.1.address
  · simp [hlt, Nat.compare_eq_gt.2 hlt]
  · have hne : compare p.1.address key.address ≠ .gt := fun hc ↦ hlt (Nat.compare_eq_gt.1 hc)
    simp [hlt, hne]

theorem unbind_eq (m : AddressSpace) (o : MemoryObject) :
    m.unbind o = (do
      demand (m.find? o).isSome .unbound
      return { m with objects := (m.objects.erase o.key).2 }) := by
  rw [find?, ← AvlMap.fst_erase]
  rfl

theorem Spaced.exists_unbind (h : m.Spaced) (hx : (o.key, x) ∈ m.entries) :
    ∃ m₁, m.unbind o = .ok m₁ ∧ m₁.epoch = m.epoch ∧
      m₁.entries = m.entries.filter (·.1.address ≠ o.address) := by
  have hget := h.find?_eq_some.2 hx
  have hold : (m.objects.erase o.key).1 = some x := (AvlMap.fst_erase _ _).trans hget
  refine ⟨{ m with objects := (m.objects.erase o.key).2 }, ?_, rfl, ?_⟩
  · rw [unbind_eq, hget, Option.isSome_some, demand_of rfl]
    rfl
  · rw [entries, AvlMap.toList_erase h.sorted hold,
      below_eq_filter (l := m.objects.toList) fun p hp ↦ h.compare_eq hx hp,
      above_eq_filter (l := m.objects.toList) fun p hp ↦ h.compare_eq hx hp]
    exact filter_lt_append_filter_gt h.ascending

theorem Spaced.exists_modify {f : ObjectState → Checked ObjectState} (h : m.Spaced)
    (hx : (o.key, x) ∈ m.entries) (hy : f { x with owner := m.epoch } = .ok y) :
    ∃ m₁, m.modify o f = .ok m₁ ∧ m₁.epoch = m.epoch ∧
      m₁.entries = m.entries.map fun p ↦ if p.1.address = o.address then (p.1, y) else p := by
  refine ⟨{ m with objects := m.objects.modify o.key fun _ ↦ y }, ?_, rfl, ?_⟩
  · rw [modify, (AvlMap.get?_eq_some h.sorted).2 hx]
    dsimp only
    rw [hy]
    rfl
  · rw [entries, AvlMap.toList_modify h.sorted, Entries.replaceAt]
    refine List.map_congr_left fun p hp ↦ ?_
    have hiff := h.key_eq_iff hx hp
    by_cases heq : p.1.address = o.address
    · rw [if_pos heq, if_pos]
      rw [hiff.2 heq]
      exact Std.ReflCmp.compare_self
    · rw [if_neg heq, if_neg]
      exact fun hc ↦ heq (hiff.1 (Std.LawfulEqOrd.eq_of_compare hc))

/-- The range of a new object overlaps no other one. -/
def Fits (m : AddressSpace) (o : MemoryObject) : Prop :=
  ∀ p ∈ m.entries, p.stop ≤ o.address ∨ o.address + max o.size 1 ≤ p.1.address

theorem Fits.address_ne (h : m.Fits o) (hp : p ∈ m.entries) : p.1.address ≠ o.address := by
  have := h p hp
  rw [Entry.stop] at this
  omega

theorem Fits.compare_eq (h : m.Fits o) (hp : p ∈ m.entries) :
    compare p.1 o.key = compare p.1.address o.address := by
  obtain hlt | hgt := Nat.lt_or_gt_of_ne (h.address_ne hp)
  · rw [ObjectKey.compare_of_lt hlt, Nat.compare_eq_lt.2 hlt]
  · rw [ObjectKey.compare_of_gt hgt, Nat.compare_eq_gt.2 hgt]

theorem Spaced.exists_bind (h : m.Spaced) (hfits : m.Fits x.object) :
    ∃ m₁, m.bind x = .ok m₁ ∧ m₁.epoch = m.epoch ∧
      m₁.entries = m.entries.filter (·.1.address < x.object.address) ++
        (x.object.key, { x with owner := m.epoch }) ::
          m.entries.filter (x.object.address < ·.1.address) := by
  have hnone : m.objects.get? x.object.key = none := by
    cases hget : m.objects.get? x.object.key with
    | none => rfl
    | some y => exact (hfits.address_ne ((AvlMap.get?_eq_some h.sorted).1 hget) rfl).elim
  refine ⟨{ m with objects := (m.objects.insert x.object.key { x with owner := m.epoch }).2 },
    ?_, rfl, ?_⟩
  · rw [AddressSpace.bind, AvlMap.insert, hnone]
    rfl
  · rw [entries, AvlMap.toList_insert h.sorted,
      below_eq_filter (l := m.objects.toList) fun p hp ↦ hfits.compare_eq hp,
      above_eq_filter (l := m.objects.toList) fun p hp ↦ hfits.compare_eq hp]
    rfl

theorem Spaced.unbind (h : m.Spaced) (hm : m₁.entries = m.entries.filter (·.1.address ≠ o.address)) :
    m₁.Spaced := by
  constructor
  · intro p hp
    rw [hm, List.mem_filter] at hp
    exact h.keyed p hp.1
  · rw [hm]
    exact h.apart.filter _

theorem Spaced.bind (h : m.Spaced) (hfits : m.Fits x.object)
    (hm : m₁.entries = m.entries.filter (·.1.address < x.object.address) ++
        (x.object.key, { x with owner := m.epoch }) ::
          m.entries.filter (x.object.address < ·.1.address)) : m₁.Spaced := by
  constructor
  · intro p hp
    rw [hm, List.mem_append, List.mem_cons, List.mem_filter, List.mem_filter] at hp
    obtain hp | rfl | hp := hp
    · exact h.keyed p hp.1
    · rfl
    · exact h.keyed p hp.1
  · rw [hm, List.pairwise_append, List.pairwise_cons]
    refine ⟨h.apart.filter _, ⟨fun q hq ↦ ?_, h.apart.filter _⟩, fun p hp q hq ↦ ?_⟩
    · rw [List.mem_filter, decide_eq_true_eq] at hq
      have := hfits q hq.1
      rw [Entry.stop] at this
      rw [Entry.stop]
      change x.object.address + max x.object.size 1 ≤ q.1.address
      omega
    · rw [List.mem_filter, decide_eq_true_eq] at hp
      have hp' := hfits p hp.1
      rw [List.mem_cons] at hq
      obtain rfl | hq := hq
      · change p.stop ≤ x.object.address
        omega
      · rw [List.mem_filter, decide_eq_true_eq] at hq
        have : p.1.address < p.stop := by rw [Entry.stop]; omega
        omega

theorem Spaced.modify (h : m.Spaced) (hx : (o.key, x) ∈ m.entries) (hobj : y.object = x.object)
    (hm : m₁.entries = m.entries.map fun p ↦ if p.1.address = o.address then (p.1, y) else p) :
    m₁.Spaced := by
  have hself : ∀ p ∈ m.entries, p.1.address = o.address → p = (o.key, x) := fun p hp heq ↦
    h.eq_of_address_eq hp hx heq
  constructor
  · intro p hp
    rw [hm, List.mem_map] at hp
    obtain ⟨q, hq, rfl⟩ := hp
    split
    · rename_i heq
      obtain rfl := hself q hq heq
      change o.key = y.object.key
      rw [hobj]
      exact h.keyed _ hq
    · exact h.keyed q hq
  · rw [hm, List.pairwise_map]
    refine List.Pairwise.imp_of_mem (fun {p q} hp hq hpq ↦ ?_) h.apart
    have hstop : ∀ r ∈ m.entries, (if r.1.address = o.address then (r.1, y) else r : Entry).stop =
        r.stop := by
      intro r hr
      split
      · rename_i heq
        obtain rfl := hself r hr heq
        rw [Entry.stop, Entry.stop, hobj]
      · rfl
    have hkey : (if q.1.address = o.address then (q.1, y) else q : Entry).1 = q.1 := by split <;> rfl
    rw [hstop p hp, hkey]
    exact hpq

/-! ## The host -/

theorem lt_of_mem_differences {old new : ByteArray} {q : Nat × UInt8} (h : q ∈ differences old new) :
    q.1 < old.size := by
  obtain ⟨i, hi, hq⟩ := List.mem_filterMap.1 h
  dsimp only at hq
  split at hq
  · cases hq
  · obtain rfl := Option.some.inj hq
    rw [List.mem_range] at hi
    exact Nat.lt_of_lt_of_le hi (Nat.min_le_left ..)

theorem exists_of_mem_changes {image : HostMemory} {l : List ObjectState}
    {changed : List (MemoryObject × List (Nat × UInt8))} (h : changes image l = some changed)
    {q : MemoryObject × List (Nat × UInt8)} (hq : q ∈ changed) :
    ∃ x ∈ l, x.object = q.1 ∧ ∀ d ∈ q.2, d.1 < x.bytes.size := by
  induction l generalizing changed with
  | nil =>
    obtain rfl := Option.some.inj h
    cases hq
  | cons x l ih =>
    have hskip : changes image l = some changed →
        ∃ y ∈ x :: l, y.object = q.1 ∧ ∀ d ∈ q.2, d.1 < y.bytes.size := by
      intro h
      obtain ⟨y, hy, hchanged⟩ := ih h hq
      exact ⟨y, List.mem_cons_of_mem _ hy, hchanged⟩
    unfold changes at h
    split at h
    · exact hskip h
    · split at h
      · exact hskip h
      · rename_i image _ hdifferences
        split at h
        · cases h
        · obtain ⟨rest, hrest, rfl⟩ := Option.map_eq_some_iff.1 h
          obtain rfl | hq := List.mem_cons.1 hq
          · exact ⟨x, List.mem_cons_self, rfl, fun d hd ↦ lt_of_mem_differences hd⟩
          · obtain ⟨y, hy, hchanged⟩ := ih hrest hq
            exact ⟨y, List.mem_cons_of_mem _ hy, hchanged⟩

end AddressSpace

end Symex
