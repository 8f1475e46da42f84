import Symex.AvlMap

namespace Symex

variable {α β : Type}

namespace AvlTree

def toList : AvlTree α β → List (α × β)
  | leaf => []
  | node _ k v l r => l.toList ++ (k, v) :: r.toList

@[simp] theorem toList_leaf : (leaf : AvlTree α β).toList = [] := rfl

@[simp] theorem toList_node (h : Nat) (k : α) (v : β) (l r : AvlTree α β) :
    (node h k v l r).toList = l.toList ++ (k, v) :: r.toList := rfl

theorem ascending_eq (t : AvlTree α β) (rest : List (α × β)) :
    t.ascending rest = t.toList ++ rest := by
  induction t generalizing rest with
  | leaf => rfl
  | node h k v l r ihl ihr => simp [ascending, ihl, ihr]

theorem descending_eq (t : AvlTree α β) (rest : List (α × β)) :
    t.descending rest = t.toList.reverse ++ rest := by
  induction t generalizing rest with
  | leaf => rfl
  | node h k v l r ihl ihr => simp [descending, ihl, ihr]

@[simp] theorem toList_mk (k : α) (v : β) (l r : AvlTree α β) :
    (mk k v l r).toList = l.toList ++ (k, v) :: r.toList := rfl

@[simp] theorem toList_rotateRight (k : α) (v : β) (l r : AvlTree α β) :
    (rotateRight k v l r).toList = l.toList ++ (k, v) :: r.toList := by
  cases l <;> simp [rotateRight]

@[simp] theorem toList_rotateLeft (k : α) (v : β) (l r : AvlTree α β) :
    (rotateLeft k v l r).toList = l.toList ++ (k, v) :: r.toList := by
  cases r <;> simp [rotateLeft]

@[simp] theorem toList_balance (k : α) (v : β) (l r : AvlTree α β) :
    (balance k v l r).toList = l.toList ++ (k, v) :: r.toList := by
  unfold balance
  split
  · split
    · split <;> simp
    · simp
  · split
    · split
      · split <;> simp
      · simp
    · simp

theorem toList_splitMin (k : α) (v : β) (l r : AvlTree α β) :
    (splitMin k v l r).1 :: (splitMin k v l r).2.toList = l.toList ++ (k, v) :: r.toList := by
  induction l generalizing k v r with
  | leaf => rfl
  | node h k' v' l' r' ihl _ =>
    have ih := ihl k' v' r'
    simp only [splitMin, toList_balance, toList_node, ← ih]
    rfl

@[simp] theorem toList_join (l r : AvlTree α β) : (join l r).toList = l.toList ++ r.toList := by
  unfold join
  split
  · rfl
  · simp
  · rename_i h k v l' r' _
    simp [← toList_splitMin k v l' r']

end AvlTree

/-! ## Entries around a key -/

namespace Entries

variable [Ord α] {key : α} {entries : List (α × β)}

def below (key : α) (entries : List (α × β)) : List (α × β) :=
  entries.filter fun p ↦ compare p.1 key == .lt

def at? (key : α) (entries : List (α × β)) : Option (α × β) :=
  entries.find? fun p ↦ compare p.1 key == .eq

def above (key : α) (entries : List (α × β)) : List (α × β) :=
  entries.filter fun p ↦ compare p.1 key == .gt

@[simp] theorem below_append (key : α) (xs ys : List (α × β)) :
    below key (xs ++ ys) = below key xs ++ below key ys := List.filter_append ..

@[simp] theorem above_append (key : α) (xs ys : List (α × β)) :
    above key (xs ++ ys) = above key xs ++ above key ys := List.filter_append ..

@[simp] theorem at?_append (key : α) (xs ys : List (α × β)) :
    at? key (xs ++ ys) = (at? key xs).or (at? key ys) := List.find?_append

@[simp] theorem below_cons (key : α) (p : α × β) (ps : List (α × β)) :
    below key (p :: ps) = if compare p.1 key = .lt then p :: below key ps else below key ps := by
  simp [below, List.filter_cons]

@[simp] theorem above_cons (key : α) (p : α × β) (ps : List (α × β)) :
    above key (p :: ps) = if compare p.1 key = .gt then p :: above key ps else above key ps := by
  simp [above, List.filter_cons]

@[simp] theorem at?_cons (key : α) (p : α × β) (ps : List (α × β)) :
    at? key (p :: ps) = if compare p.1 key = .eq then some p else at? key ps := by
  cases h : compare p.1 key <;> simp [at?, h]

@[simp] theorem below_nil (key : α) : below key ([] : List (α × β)) = [] := rfl
@[simp] theorem above_nil (key : α) : above key ([] : List (α × β)) = [] := rfl
@[simp] theorem at?_nil (key : α) : at? key ([] : List (α × β)) = none := rfl

def replaceAt (key : α) (f : β → β) (entries : List (α × β)) : List (α × β) :=
  entries.map fun p ↦ if compare p.1 key = .eq then (p.1, f p.2) else p

theorem replaceAt_of_ne {f : β → β} (hne : ∀ p ∈ entries, compare p.1 key ≠ .eq) :
    replaceAt key f entries = entries := by
  rw [replaceAt, List.map_congr_left (g := id) fun p hp ↦ by simp [hne p hp], List.map_id]

def AllBelow (key : α) (entries : List (α × β)) : Prop := ∀ p ∈ entries, compare p.1 key = .lt

def AllAbove (key : α) (entries : List (α × β)) : Prop := ∀ p ∈ entries, compare p.1 key = .gt

namespace AllBelow

theorem below_eq (h : AllBelow key entries) : below key entries = entries := by
  rw [below, List.filter_eq_self]
  intro p hp
  simp [h p hp]

theorem above_eq (h : AllBelow key entries) : above key entries = [] := by
  rw [above, List.filter_eq_nil_iff]
  intro p hp
  simp [h p hp]

theorem at?_eq (h : AllBelow key entries) : at? key entries = none := by
  rw [at?, List.find?_eq_none]
  intro p hp
  simp [h p hp]

theorem replaceAt_eq (h : AllBelow key entries) (f : β → β) : replaceAt key f entries = entries :=
  replaceAt_of_ne fun p hp ↦ by simp [h p hp]

end AllBelow

namespace AllAbove

theorem below_eq (h : AllAbove key entries) : below key entries = [] := by
  rw [below, List.filter_eq_nil_iff]
  intro p hp
  simp [h p hp]

theorem above_eq (h : AllAbove key entries) : above key entries = entries := by
  rw [above, List.filter_eq_self]
  intro p hp
  simp [h p hp]

theorem at?_eq (h : AllAbove key entries) : at? key entries = none := by
  rw [at?, List.find?_eq_none]
  intro p hp
  simp [h p hp]

theorem replaceAt_eq (h : AllAbove key entries) (f : β → β) : replaceAt key f entries = entries :=
  replaceAt_of_ne fun p hp ↦ by simp [h p hp]

end AllAbove

theorem perm_around [Std.TransOrd α] (h : entries.Pairwise fun p q ↦ compare p.1 q.1 = .lt) (key : α) :
    entries.Perm ((at? key entries).toList ++ (below key entries ++ above key entries)) := by
  induction entries with
  | nil => exact .nil
  | cons p ps ih =>
    obtain ⟨hp, hps⟩ := List.pairwise_cons.1 h
    cases hc : compare p.1 key with
    | lt =>
      simpa [hc] using ((ih hps).cons p).trans List.perm_middle.symm
    | eq =>
      have habove : AllAbove key ps := fun q hq ↦ by
        rw [Std.OrientedCmp.gt_iff_lt, ← Std.TransCmp.congr_left hc]
        exact hp q hq
      simp [hc, habove.below_eq, habove.above_eq]
    | gt =>
      have habove : AllAbove key ps := fun q hq ↦
        Std.OrientedCmp.gt_iff_lt.2 (Std.TransCmp.lt_trans (Std.OrientedCmp.gt_iff_lt.1 hc) (hp q hq))
      simp [hc, habove.below_eq, habove.above_eq, habove.at?_eq]

end Entries

/-! ## Lists in ascending order -/

theorem pairwise_cases {α : Type} {R : α → α → Prop} {l : List α} (h : l.Pairwise R) {p q : α}
    (hp : p ∈ l) (hq : q ∈ l) : p = q ∨ R p q ∨ R q p := by
  induction l with
  | nil => cases hp
  | cons x xs ih =>
    rw [List.pairwise_cons] at h
    rw [List.mem_cons] at hp hq
    obtain rfl | hp := hp
    · obtain rfl | hq := hq
      · exact .inl rfl
      · exact .inr (.inl (h.1 q hq))
    · obtain rfl | hq := hq
      · exact .inr (.inr (h.1 p hp))
      · exact ih h.2 hp hq

/-! ## Sorted trees -/

namespace AvlTree

open Entries

variable [Ord α] {t l r : AvlTree α β} {k key : α} {v : β} {h : Nat}

def Sorted (t : AvlTree α β) : Prop := t.toList.Pairwise fun p q ↦ compare p.1 q.1 = .lt

theorem sorted_node : (node h k v l r).Sorted ↔ l.Sorted ∧ r.Sorted ∧
    AllBelow k l.toList ∧ (∀ p ∈ r.toList, compare k p.1 = .lt) ∧
    ∀ p ∈ l.toList, ∀ q ∈ r.toList, compare p.1 q.1 = .lt := by
  simp only [Sorted, AllBelow, toList_node, List.pairwise_append, List.pairwise_cons, List.mem_cons,
    forall_eq_or_imp]
  constructor
  · rintro ⟨hl, ⟨hk, hr⟩, hlr⟩
    exact ⟨hl, hr, fun p hp ↦ (hlr p hp).1, hk, fun p hp ↦ (hlr p hp).2⟩
  · rintro ⟨hl, hr, hlk, hk, hlr⟩
    exact ⟨hl, ⟨hk, hr⟩, fun p hp ↦ ⟨hlk p hp, hlr p hp⟩⟩

variable [Std.TransOrd α]

theorem Sorted.allAbove (ht : (node h k v l r).Sorted) (hkey : compare key k = .lt) :
    AllAbove key r.toList := by
  obtain ⟨-, -, -, hr, -⟩ := sorted_node.1 ht
  intro p hp
  rw [Std.OrientedCmp.gt_iff_lt]
  exact Std.TransCmp.lt_trans hkey (hr p hp)

theorem Sorted.allBelow (ht : (node h k v l r).Sorted) (hkey : compare k key = .lt) :
    AllBelow key l.toList := by
  obtain ⟨-, -, hl, -, -⟩ := sorted_node.1 ht
  exact fun p hp ↦ Std.TransCmp.lt_trans (hl p hp) hkey

theorem Sorted.below_above (ht : t.Sorted) (key : α) :
    (below key t.toList ++ above key t.toList).Pairwise fun p q ↦ compare p.1 q.1 = .lt := by
  rw [List.pairwise_append]
  refine ⟨ht.filter _, ht.filter _, fun p hp q hq ↦ ?_⟩
  simp only [below, above, List.mem_filter, beq_iff_eq] at hp hq
  exact Std.TransCmp.lt_trans hp.2 (Std.OrientedCmp.gt_iff_lt.1 hq.2)

variable [Std.LawfulEqOrd α]

theorem Sorted.split_node (ht : (node h k v l r).Sorted) (key : α) :
    (compare key k = .lt ∧ compare k key = .gt ∧ AllAbove key r.toList) ∨
    (compare key k = .gt ∧ compare k key = .lt ∧ AllBelow key l.toList) ∨
    (key = k ∧ AllBelow k l.toList ∧ AllAbove k r.toList) := by
  cases hc : compare key k with
  | lt => exact .inl ⟨rfl, Std.OrientedCmp.gt_iff_lt.2 hc, ht.allAbove hc⟩
  | gt =>
    have hk := Std.OrientedCmp.gt_iff_lt.1 hc
    exact .inr (.inl ⟨rfl, hk, ht.allBelow hk⟩)
  | eq =>
    obtain ⟨-, -, hl, hr, -⟩ := sorted_node.1 ht
    exact .inr (.inr ⟨Std.LawfulEqCmp.eq_of_compare hc, hl,
      fun p hp ↦ Std.OrientedCmp.gt_iff_lt.2 (hr p hp)⟩)

theorem get?_eq (ht : t.Sorted) : t.get? key = (at? key t.toList).map (·.2) := by
  induction t with
  | leaf => rfl
  | node h k x l r ihl ihr =>
    obtain ⟨hl, hr, -⟩ := sorted_node.1 ht
    obtain ⟨hc, hk, hgt⟩ | ⟨hc, hk, hlt⟩ | ⟨rfl, hlt, hgt⟩ := ht.split_node key
    · simp [get?, hc, hk, ihl hl, hgt.at?_eq]
    · simp [get?, hc, hk, ihr hr, hlt.at?_eq]
    · simp [get?, hlt.at?_eq]

theorem toList_insert (ht : t.Sorted) :
    (t.insert key v).toList = below key t.toList ++ (key, v) :: above key t.toList := by
  induction t with
  | leaf => rfl
  | node h k x l r ihl ihr =>
    obtain ⟨hl, hr, -⟩ := sorted_node.1 ht
    obtain ⟨hc, hk, hgt⟩ | ⟨hc, hk, hlt⟩ | ⟨rfl, hlt, hgt⟩ := ht.split_node key
    · simp [insert, hc, hk, ihl hl, hgt.below_eq, hgt.above_eq]
    · simp [insert, hc, hk, ihr hr, hlt.below_eq, hlt.above_eq]
    · simp [insert, hlt.below_eq, hlt.above_eq, hgt.below_eq, hgt.above_eq]

theorem toList_erase (ht : t.Sorted) :
    (t.erase key).toList = below key t.toList ++ above key t.toList := by
  induction t with
  | leaf => rfl
  | node h k x l r ihl ihr =>
    obtain ⟨hl, hr, -⟩ := sorted_node.1 ht
    obtain ⟨hc, hk, hgt⟩ | ⟨hc, hk, hlt⟩ | ⟨rfl, hlt, hgt⟩ := ht.split_node key
    · simp [erase, hc, hk, ihl hl, hgt.below_eq, hgt.above_eq]
    · simp [erase, hc, hk, ihr hr, hlt.below_eq, hlt.above_eq]
    · simp [erase, hlt.below_eq, hlt.above_eq, hgt.below_eq, hgt.above_eq]

theorem toList_modify (ht : t.Sorted) (f : β → β) :
    (t.modify key f).toList = replaceAt key f t.toList := by
  induction t with
  | leaf => rfl
  | node h k x l r ihl ihr =>
    obtain ⟨hl, hr, -⟩ := sorted_node.1 ht
    rw [toList_node, replaceAt, List.map_append, List.map_cons]
    change _ = replaceAt key f l.toList ++ _ :: replaceAt key f r.toList
    obtain ⟨hc, hk, hgt⟩ | ⟨hc, hk, hlt⟩ | ⟨rfl, hlt, hgt⟩ := ht.split_node key
    · simp [modify, hc, hk, ihl hl, hgt.replaceAt_eq]
    · simp [modify, hc, hk, ihr hr, hlt.replaceAt_eq]
    · simp [modify, hlt.replaceAt_eq, hgt.replaceAt_eq]

theorem floor_eq (ht : t.Sorted) (best : Option (α × β)) :
    t.floor key best = (at? key t.toList).or ((below key t.toList).getLast?.or best) := by
  induction t generalizing best with
  | leaf => rfl
  | node h k x l r ihl ihr =>
    obtain ⟨hl, hr, -⟩ := sorted_node.1 ht
    obtain ⟨hc, hk, hgt⟩ | ⟨hc, hk, hlt⟩ | ⟨rfl, hlt, hgt⟩ := ht.split_node key
    · simp [floor, hc, hk, ihl hl, hgt.below_eq, hgt.at?_eq]
    · rw [floor, hc, toList_node]
      simp only [ihr hr, below_append, at?_append, hlt.at?_eq, hlt.below_eq, below_cons, hk, at?_cons]
      simp [List.getLast?_append, List.getLast?_cons]
    · simp [floor, hlt.at?_eq]

theorem downFrom_eq (ht : t.Sorted) (rest : List (α × β)) :
    t.downFrom key rest = (at? key t.toList).toList ++ (below key t.toList).reverse ++ rest := by
  induction t generalizing rest with
  | leaf => rfl
  | node h k x l r ihl ihr =>
    obtain ⟨hl, hr, -⟩ := sorted_node.1 ht
    obtain ⟨hc, hk, hgt⟩ | ⟨hc, hk, hlt⟩ | ⟨rfl, hlt, hgt⟩ := ht.split_node key
    · simp [downFrom, hk, ihl hl, hgt.below_eq, hgt.at?_eq]
    · simp [downFrom, hk, ihr hr, hlt.below_eq, hlt.at?_eq, descending_eq]
    · simp [downFrom, ihr hr, hlt.below_eq, hlt.at?_eq, hgt.below_eq, hgt.at?_eq, descending_eq]

theorem upAfter_eq (ht : t.Sorted) (rest : List (α × β)) :
    t.upAfter key rest = above key t.toList ++ rest := by
  induction t generalizing rest with
  | leaf => rfl
  | node h k x l r ihl ihr =>
    obtain ⟨hl, hr, -⟩ := sorted_node.1 ht
    obtain ⟨hc, hk, hgt⟩ | ⟨hc, hk, hlt⟩ | ⟨rfl, hlt, hgt⟩ := ht.split_node key
    · simp [upAfter, hk, ihl hl, hgt.above_eq, ascending_eq]
    · simp [upAfter, hk, ihr hr, hlt.above_eq]
    · simp [upAfter, ihr hr, hlt.above_eq, hgt.above_eq]

theorem Sorted.insert (ht : t.Sorted) : (t.insert key v).Sorted := by
  have h := ht.below_above key
  rw [Sorted, toList_insert ht]
  rw [List.pairwise_append] at h ⊢
  refine ⟨h.1, List.pairwise_cons.2 ⟨fun q hq ↦ ?_, h.2.1⟩, fun p hp q hq ↦ ?_⟩
  · simp only [above, List.mem_filter, beq_iff_eq] at hq
    exact Std.OrientedCmp.gt_iff_lt.1 hq.2
  · obtain rfl | hq := List.mem_cons.1 hq
    · simp only [below, List.mem_filter, beq_iff_eq] at hp
      exact hp.2
    · exact h.2.2 p hp q hq

theorem Sorted.erase (ht : t.Sorted) : (t.erase key).Sorted := by
  rw [Sorted, toList_erase ht]
  exact ht.below_above key

theorem Sorted.modify (ht : t.Sorted) (f : β → β) : (t.modify key f).Sorted := by
  rw [Sorted, toList_modify ht, replaceAt, List.pairwise_map]
  refine List.Pairwise.imp (fun hpq ↦ ?_) ht
  split <;> split <;> exact hpq

end AvlTree

namespace AvlMap

open Entries

theorem toList_eq (m : AvlMap α β) : m.toList = m.root.toList := by
  rw [toList, AvlTree.ascending_eq, List.append_nil]

variable [Ord α] {m : AvlMap α β} {key : α} {v : β}

def Sorted (m : AvlMap α β) : Prop := m.toList.Pairwise fun p q ↦ compare p.1 q.1 = .lt

theorem sorted_iff : m.Sorted ↔ m.root.Sorted := by
  rw [Sorted, toList_eq, AvlTree.Sorted]

variable [Std.TransOrd α] [Std.LawfulEqOrd α]

theorem get?_eq (hm : m.Sorted) : m.get? key = (at? key m.toList).map (·.2) := by
  rw [get?, AvlTree.get?_eq (sorted_iff.1 hm), toList_eq]

theorem toList_insert (hm : m.Sorted) :
    (m.insert key v).2.toList = below key m.toList ++ (key, v) :: above key m.toList := by
  rw [toList_eq, toList_eq]
  exact AvlTree.toList_insert (sorted_iff.1 hm)

theorem Sorted.insert (hm : m.Sorted) : (m.insert key v).2.Sorted :=
  sorted_iff.2 (AvlTree.Sorted.insert (sorted_iff.1 hm))

theorem toList_erase {x : β} (hm : m.Sorted) (hx : (m.erase key).1 = some x) :
    (m.erase key).2.toList = below key m.toList ++ above key m.toList := by
  unfold erase at hx ⊢
  split at hx
  · cases hx
  · rw [toList_eq, toList_eq]
    exact AvlTree.toList_erase (sorted_iff.1 hm)

theorem Sorted.erase (hm : m.Sorted) : (m.erase key).2.Sorted := by
  unfold AvlMap.erase
  split
  · exact hm
  · exact sorted_iff.2 (AvlTree.Sorted.erase (sorted_iff.1 hm))

theorem toList_modify (hm : m.Sorted) (f : β → β) :
    (m.modify key f).toList = replaceAt key f m.toList := by
  rw [toList_eq, toList_eq]
  exact AvlTree.toList_modify (sorted_iff.1 hm) f

theorem Sorted.modify (hm : m.Sorted) (f : β → β) : (m.modify key f).Sorted :=
  sorted_iff.2 (AvlTree.Sorted.modify (sorted_iff.1 hm) f)

theorem floor?_eq (hm : m.Sorted) :
    m.floor? key = (at? key m.toList).or (below key m.toList).getLast? := by
  rw [floor?, AvlTree.floor_eq (sorted_iff.1 hm), toList_eq, Option.or_none]

theorem downFrom_eq (hm : m.Sorted) :
    m.downFrom key = (at? key m.toList).toList ++ (below key m.toList).reverse := by
  rw [downFrom, AvlTree.downFrom_eq (sorted_iff.1 hm), toList_eq, List.append_nil]

theorem upAfter_eq (hm : m.Sorted) : m.upAfter key = above key m.toList := by
  rw [upAfter, AvlTree.upAfter_eq (sorted_iff.1 hm), toList_eq, List.append_nil]

theorem get?_eq_some (hm : m.Sorted) {v : β} : m.get? key = some v ↔ (key, v) ∈ m.toList := by
  rw [get?_eq hm, Option.map_eq_some_iff]
  constructor
  · rintro ⟨⟨k, x⟩, hp, rfl⟩
    have hk := List.find?_some hp
    obtain rfl : k = key := Std.LawfulEqOrd.eq_of_compare (by simpa using hk)
    exact List.mem_of_find?_eq_some hp
  · intro hmem
    refine ⟨(key, v), ?_, rfl⟩
    rw [Entries.at?]
    cases h : m.toList.find? fun p ↦ compare p.1 key == .eq with
    | none =>
      have := List.find?_eq_none.1 h _ hmem
      simp at this
    | some p =>
      have hk := List.find?_some h
      have hk : compare p.1 key = .eq := by simpa using hk
      obtain heq | hlt | hlt := pairwise_cases hm (List.mem_of_find?_eq_some h) hmem
      · rw [heq]
      · rw [hk] at hlt
        cases hlt
      · rw [Std.OrientedCmp.eq_symm hk] at hlt
        cases hlt

omit [Std.TransOrd α] [Std.LawfulEqOrd α] in
theorem fst_erase (m : AvlMap α β) (key : α) : (m.erase key).1 = m.get? key := by
  unfold erase
  split
  · rename_i hn
    exact hn.symm
  · rename_i v hv
    exact hv.symm

theorem floor?_eq_some (hm : m.Sorted) {p : α × β} (h : m.floor? key = some p) :
    p ∈ m.toList ∧ compare p.1 key ≠ .gt ∧
      ∀ q ∈ m.toList, compare q.1 key ≠ .gt → q = p ∨ compare q.1 p.1 = .lt := by
  rw [floor?_eq hm] at h
  cases hat : Entries.at? key m.toList with
  | some r =>
    rw [hat, Option.some_or] at h
    obtain rfl := Option.some.inj h
    have hk : compare r.1 key = .eq := by simpa using List.find?_some hat
    have hmem := List.mem_of_find?_eq_some hat
    refine ⟨hmem, by simp [hk], fun q hq hle ↦ ?_⟩
    obtain rfl | hlt | hlt := pairwise_cases hm hq hmem
    · exact .inl rfl
    · exact .inr hlt
    · have hkey := Std.LawfulEqOrd.eq_of_compare hk
      rw [hkey] at hlt
      exact (hle (Std.OrientedCmp.gt_of_lt hlt)).elim
  | none =>
    rw [hat, Option.none_or] at h
    have hne : ∀ q ∈ m.toList, compare q.1 key ≠ .eq := by
      intro q hq
      simpa using List.find?_eq_none.1 hat q hq
    have hmem := List.mem_of_getLast? h
    have hp : p ∈ m.toList ∧ compare p.1 key = .lt := by
      simpa [Entries.below] using hmem
    refine ⟨hp.1, by simp [hp.2], fun q hq hle ↦ ?_⟩
    have hlt : compare q.1 key = .lt := by
      cases hc : compare q.1 key with
      | lt => rfl
      | eq => exact (hne q hq hc).elim
      | gt => exact (hle hc).elim
    obtain rfl | hqp | hpq := pairwise_cases hm hq hp.1
    · exact .inl rfl
    · exact .inr hqp
    · -- the last of the entries below is above none of them
      obtain ⟨front, hfront⟩ := List.getLast?_eq_some_iff.1 h
      have hq' : q ∈ Entries.below key m.toList := by simpa [Entries.below] using ⟨hq, hlt⟩
      have hsorted : (Entries.below key m.toList).Pairwise fun p q ↦ compare p.1 q.1 = .lt :=
        List.Pairwise.filter _ hm
      rw [hfront] at hq' hsorted
      rw [List.mem_append, List.mem_singleton] at hq'
      obtain hq' | rfl := hq'
      · exact .inr ((List.pairwise_append.1 hsorted).2.2 q hq' p (by simp))
      · exact .inl rfl

theorem floor?_eq_none (hm : m.Sorted) (h : m.floor? key = none) :
    ∀ q ∈ m.toList, compare q.1 key = .gt := by
  rw [floor?_eq hm, Option.or_eq_none_iff] at h
  intro q hq
  have hne : compare q.1 key ≠ .eq := by simpa using List.find?_eq_none.1 h.1 q hq
  have hbelow : Entries.below key m.toList = [] := by simpa using h.2
  have hnlt : compare q.1 key ≠ .lt := by
    simpa using List.filter_eq_nil_iff.1 hbelow q hq
  cases hc : compare q.1 key with
  | lt => exact (hnlt hc).elim
  | eq => exact (hne hc).elim
  | gt => rfl

theorem mem_downFrom (hm : m.Sorted) {p : α × β} :
    p ∈ m.downFrom key ↔ p ∈ m.toList ∧ compare p.1 key ≠ .gt := by
  rw [downFrom_eq hm, List.mem_append, Option.mem_toList, List.mem_reverse]
  constructor
  · rintro (hat | hbelow)
    · have hk : compare p.1 key = .eq := by simpa using List.find?_some hat
      exact ⟨List.mem_of_find?_eq_some hat, by simp [hk]⟩
    · have hk : p ∈ m.toList ∧ compare p.1 key = .lt := by simpa [Entries.below] using hbelow
      exact ⟨hk.1, by simp [hk.2]⟩
  · rintro ⟨hmem, hne⟩
    cases hc : compare p.1 key with
    | gt => exact (hne hc).elim
    | lt => exact .inr (by simpa [Entries.below] using ⟨hmem, hc⟩)
    | eq =>
      left
      have hget : m.get? p.1 = some p.2 := (get?_eq_some hm).2 hmem
      rw [get?_eq hm, Option.map_eq_some_iff] at hget
      obtain ⟨q, hq, hv⟩ := hget
      have hqk : compare q.1 p.1 = .eq := by simpa using List.find?_some hq
      have hqp : q = p := Prod.ext (Std.LawfulEqOrd.eq_of_compare hqk) hv
      rw [← Std.LawfulEqOrd.eq_of_compare hc, hq, hqp]

theorem mem_upAfter (hm : m.Sorted) {p : α × β} :
    p ∈ m.upAfter key ↔ p ∈ m.toList ∧ compare p.1 key = .gt := by
  rw [upAfter_eq hm]
  simp [Entries.above]

theorem pairwise_upAfter {R : α × β → α × β → Prop} (hm : m.Sorted) (h : m.toList.Pairwise R) :
    (m.upAfter key).Pairwise R := by
  rw [upAfter_eq hm]
  exact h.filter _

theorem pairwise_downFrom {R : α × β → α × β → Prop} (hm : m.Sorted) (h : m.toList.Pairwise R) :
    (m.downFrom key).Pairwise fun p q ↦ R q p := by
  rw [downFrom_eq hm, List.pairwise_append]
  refine ⟨?_, ?_, fun p hp q hq ↦ ?_⟩
  · cases Entries.at? key m.toList with
    | none => exact List.Pairwise.nil
    | some p => exact List.pairwise_singleton _ _
  · rw [List.pairwise_reverse]
    exact h.filter _
  · rw [Option.mem_toList] at hp
    have hpk : compare p.1 key = .eq := by simpa using List.find?_some hp
    have hq : q ∈ m.toList ∧ compare q.1 key = .lt := by simpa [Entries.below] using hq
    have hlt : compare q.1 p.1 = .lt := by rw [Std.LawfulEqOrd.eq_of_compare hpk]; exact hq.2
    obtain rfl | hqp | hpq := pairwise_cases (hm.and h) hq.1 (List.mem_of_find?_eq_some hp)
    · have hself : compare q.1 q.1 = .eq := Std.ReflCmp.compare_self
      rw [hself] at hlt
      cases hlt
    · exact hqp.2
    · rw [Std.OrientedCmp.gt_of_lt hpq.1] at hlt
      cases hlt

theorem perm_insert (hm : m.Sorted) (hnone : m.get? key = none) :
    (m.insert key v).2.toList.Perm ((key, v) :: m.toList) := by
  have hat : at? key m.toList = none := by
    rw [get?_eq hm, Option.map_eq_none_iff] at hnone
    exact hnone
  have haround := perm_around hm key
  rw [hat] at haround
  rw [toList_insert hm]
  exact List.perm_middle.trans (haround.symm.cons _)

theorem perm_erase (hm : m.Sorted) (hv : m.get? key = some v) :
    m.toList.Perm ((key, v) :: (m.erase key).2.toList) := by
  have hat : at? key m.toList = some (key, v) := by
    have hget := hv
    rw [get?_eq hm] at hget
    obtain ⟨⟨k, x⟩, hp, rfl⟩ := Option.map_eq_some_iff.1 hget
    obtain rfl : k = key := Std.LawfulEqOrd.eq_of_compare (by simpa using List.find?_some hp)
    exact hp
  have haround := perm_around hm key
  rw [hat] at haround
  rw [toList_erase hm ((fst_erase m key).trans hv)]
  exact haround

end AvlMap

end Symex
