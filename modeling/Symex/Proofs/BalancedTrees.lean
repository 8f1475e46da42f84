import Mathlib.Data.Finmap
import Symex.Proofs.SearchTrees

namespace Symex

variable {α β : Type}

namespace AvlTree

variable {t l r : AvlTree α β} {k key : α} {v value : β}

/-- Every node stores its height, and the heights of its children differ by at most one. -/
def Balanced : AvlTree α β → Prop
  | leaf => True
  | node h _ _ l r =>
    h = max l.height r.height + 1 ∧ l.height ≤ r.height + 1 ∧ r.height ≤ l.height + 1 ∧
      l.Balanced ∧ r.Balanced

@[simp] theorem height_leaf : (leaf : AvlTree α β).height = 0 := rfl

@[simp] theorem height_node (h : Nat) (k : α) (v : β) (l r : AvlTree α β) :
    (node h k v l r).height = h := rfl

@[simp] theorem height_mk (k : α) (v : β) (l r : AvlTree α β) :
    (mk k v l r).height = max l.height r.height + 1 := rfl

theorem Balanced.mk (hl : l.Balanced) (hr : r.Balanced) (hlr : l.height ≤ r.height + 1)
    (hrl : r.height ≤ l.height + 1) : (mk k v l r).Balanced :=
  ⟨rfl, hlr, hrl, hl, hr⟩

/-- The tree is balanced, and its height is `n` or one more. -/
def Within (n : Nat) (t : AvlTree α β) : Prop := t.Balanced ∧ n ≤ t.height ∧ t.height ≤ n + 1

theorem balance_eq_mk (hlr : l.height ≤ r.height + 1) (hrl : r.height ≤ l.height + 1) :
    balance k v l r = mk k v l r := by
  unfold balance
  rw [if_neg (by omega), if_neg (by omega)]

theorem Balanced.balance_left (hl : l.Balanced) (hr : r.Balanced) (h : l.height = r.height + 2) :
    (balance k v l r).Within (r.height + 2) := by
  unfold balance
  rw [if_pos (by omega)]
  cases l with
  | leaf => simp at h
  | node hgt k' v' outer inner =>
    obtain ⟨hh, hoi, hio, houter, hinner⟩ := hl
    rw [height_node] at h
    dsimp only
    split
    · -- the inner grandchild comes up in two rotations
      rename_i hlt
      cases inner with
      | leaf => simp at hlt
      | node hgt' k'' v'' il ir =>
        obtain ⟨hh', hlr, hrl, hil, hir⟩ := hinner
        rw [height_node] at hlt hio hoi hh
        change (AvlTree.mk k'' v'' (AvlTree.mk k' v' outer il) (AvlTree.mk k v ir r)).Within _
        have hleft := height_mk k' v' outer il
        have hright := height_mk k v ir r
        refine ⟨.mk (.mk houter hil ?_ ?_) (.mk hir hr ?_ ?_) ?_ ?_, ?_, ?_⟩
        all_goals try rw [height_mk k'']
        all_goals omega
    · change (AvlTree.mk k' v' outer (AvlTree.mk k v inner r)).Within _
      have hright := height_mk k v inner r
      refine ⟨.mk houter (.mk hinner hr ?_ ?_) ?_ ?_, ?_, ?_⟩
      all_goals try rw [height_mk k']
      all_goals omega

theorem Balanced.balance_right (hl : l.Balanced) (hr : r.Balanced) (h : r.height = l.height + 2) :
    (balance k v l r).Within (l.height + 2) := by
  unfold balance
  rw [if_neg (by omega), if_pos (by omega)]
  cases r with
  | leaf => simp at h
  | node hgt k' v' inner outer =>
    obtain ⟨hh, hio, hoi, hinner, houter⟩ := hr
    rw [height_node] at h
    dsimp only
    split
    · rename_i hlt
      cases inner with
      | leaf => simp at hlt
      | node hgt' k'' v'' il ir =>
        obtain ⟨hh', hlr, hrl, hil, hir⟩ := hinner
        rw [height_node] at hlt hio hoi hh
        change (AvlTree.mk k'' v'' (AvlTree.mk k v l il) (AvlTree.mk k' v' ir outer)).Within _
        have hleft := height_mk k v l il
        have hright := height_mk k' v' ir outer
        refine ⟨.mk (.mk hl hil ?_ ?_) (.mk hir houter ?_ ?_) ?_ ?_, ?_, ?_⟩
        all_goals try rw [height_mk k'']
        all_goals omega
    · change (AvlTree.mk k' v' (AvlTree.mk k v l inner) outer).Within _
      have hleft := height_mk k v l inner
      refine ⟨.mk (.mk hl hinner ?_ ?_) houter ?_ ?_, ?_, ?_⟩
      all_goals try rw [height_mk k']
      all_goals omega

/-- Balancing gives a balanced tree, which is as high as a plain node where that one is balanced, and
otherwise may be lower by one. -/
theorem Balanced.balance (hl : l.Balanced) (hr : r.Balanced) (hlr : l.height ≤ r.height + 2)
    (hrl : r.height ≤ l.height + 2) :
    (balance k v l r).Within (max l.height r.height) ∧
      (l.height ≤ r.height + 1 → r.height ≤ l.height + 1 →
        (AvlTree.balance k v l r).height = max l.height r.height + 1) := by
  by_cases hleft : l.height = r.height + 2
  · have h := hl.balance_left (k := k) (v := v) hr hleft
    rw [show max l.height r.height = r.height + 2 by omega]
    exact ⟨h, by omega⟩
  · by_cases hright : r.height = l.height + 2
    · have h := hl.balance_right (k := k) (v := v) hr hright
      rw [show max l.height r.height = l.height + 2 by omega]
      exact ⟨h, by omega⟩
    · rw [balance_eq_mk (by omega) (by omega)]
      refine ⟨⟨.mk hl hr (by omega) (by omega), ?_, ?_⟩, fun _ _ ↦ rfl⟩
      all_goals simp only [height_mk]
      all_goals omega

theorem Balanced.balance_shrunk {l' r' : AvlTree α β} (hl : l'.Balanced) (hr : r'.Balanced)
    (hlr : l.height ≤ r.height + 1) (hrl : r.height ≤ l.height + 1)
    (h : l'.height ≤ l.height ∧ l.height ≤ l'.height + 1 ∧ r' = r ∨
      r'.height ≤ r.height ∧ r.height ≤ r'.height + 1 ∧ l' = l) :
    (AvlTree.balance k v l' r').Balanced ∧
      (AvlTree.balance k v l' r').height ≤ max l.height r.height + 1 ∧
      max l.height r.height ≤ (AvlTree.balance k v l' r').height := by
  have hclose : l'.height ≤ r'.height + 2 ∧ r'.height ≤ l'.height + 2 := by
    obtain ⟨h1, h2, rfl⟩ | ⟨h1, h2, rfl⟩ := h <;> omega
  obtain ⟨⟨hb, hge, hle⟩, hnear⟩ := hl.balance (k := k) (v := v) hr hclose.1 hclose.2
  refine ⟨hb, ?_, ?_⟩
  · obtain ⟨h1, h2, rfl⟩ | ⟨h1, h2, rfl⟩ := h <;> omega
  · by_cases hn : l'.height ≤ r'.height + 1 ∧ r'.height ≤ l'.height + 1
    · have := hnear hn.1 hn.2
      obtain ⟨h1, h2, rfl⟩ | ⟨h1, h2, rfl⟩ := h <;> omega
    · obtain ⟨h1, h2, rfl⟩ | ⟨h1, h2, rfl⟩ := h <;> omega

theorem Balanced.splitMin (hl : l.Balanced) (hr : r.Balanced) (hlr : l.height ≤ r.height + 1)
    (hrl : r.height ≤ l.height + 1) :
    (splitMin k v l r).2.Within (max l.height r.height) := by
  induction l generalizing k v r with
  | leaf =>
    refine ⟨hr, ?_, ?_⟩
    all_goals simp only [AvlTree.splitMin, height_leaf] at *
    all_goals omega
  | node h k' v' l' r' ihl _ =>
    obtain ⟨hh, hlr', hrl', hl', hr'⟩ := hl
    obtain ⟨hb, hge, hle⟩ := ihl (k := k') (v := v') hl' hr' hlr' hrl'
    obtain ⟨hb', hle', hge'⟩ := Balanced.balance_shrunk (k := k) (v := v)
      (l := node h k' v' l' r') hb hr hlr hrl (.inl ⟨by simp only [height_node]; omega,
        by simp only [height_node]; omega, rfl⟩)
    exact ⟨hb', hge', hle'⟩

theorem Balanced.join (hl : l.Balanced) (hr : r.Balanced) (hlr : l.height ≤ r.height + 1)
    (hrl : r.height ≤ l.height + 1) : (join l r).Within (max l.height r.height) := by
  unfold AvlTree.join
  split
  · refine ⟨hr, ?_, ?_⟩
    all_goals simp only [height_leaf] at *
    all_goals omega
  · refine ⟨hl, ?_, ?_⟩
    all_goals simp only [height_leaf] at *
    all_goals omega
  · rename_i h k' v' l' r' _
    obtain ⟨hh, hlr', hrl', hl', hr'⟩ := hr
    obtain ⟨hb, hge, hle⟩ := Balanced.splitMin (k := k') (v := v') hl' hr' hlr' hrl'
    obtain ⟨hb', hle', hge'⟩ := Balanced.balance_shrunk (k := (AvlTree.splitMin k' v' l' r').1.1)
      (v := (AvlTree.splitMin k' v' l' r').1.2) (r := node h k' v' l' r') hl hb hlr hrl
      (.inr ⟨by simp only [height_node]; omega, by simp only [height_node]; omega, rfl⟩)
    exact ⟨hb', hge', hle'⟩

section

variable [Ord α]

theorem Balanced.insert (ht : t.Balanced) (key : α) (value : β) :
    (t.insert key value).Within t.height := by
  induction t with
  | leaf => exact ⟨⟨rfl, by simp, by simp, trivial, trivial⟩, by simp, by simp [AvlTree.insert]⟩
  | node h k v l r ihl ihr =>
    obtain ⟨rfl, hlr, hrl, hl, hr⟩ := ht
    rw [AvlTree.insert]
    split
    · obtain ⟨hb, hge, hle⟩ := ihl hl
      obtain ⟨⟨hb', hge', hle'⟩, hnear⟩ := hb.balance (k := k) (v := v) hr (by omega) (by omega)
      refine ⟨hb', ?_, ?_⟩
      all_goals simp only [height_node]
      all_goals omega
    · obtain ⟨hb, hge, hle⟩ := ihr hr
      obtain ⟨⟨hb', hge', hle'⟩, hnear⟩ := hl.balance (k := k) (v := v) hb (by omega) (by omega)
      refine ⟨hb', ?_, ?_⟩
      all_goals simp only [height_node]
      all_goals omega
    · exact ⟨⟨rfl, hlr, hrl, hl, hr⟩, Nat.le_refl _, Nat.le_succ _⟩

theorem Balanced.erase (ht : t.Balanced) (key : α) :
    (t.erase key).Balanced ∧ (t.erase key).height ≤ t.height ∧ t.height ≤ (t.erase key).height + 1 := by
  induction t with
  | leaf => exact ⟨trivial, Nat.le_refl _, Nat.le_succ _⟩
  | node h k v l r ihl ihr =>
    obtain ⟨rfl, hlr, hrl, hl, hr⟩ := ht
    rw [AvlTree.erase, height_node]
    split
    · obtain ⟨hb, hle, hge⟩ := ihl hl
      obtain ⟨hb', hle', hge'⟩ := hb.balance_shrunk (k := k) (v := v) hr hlr hrl (.inl ⟨hle, hge, rfl⟩)
      exact ⟨hb', hle', by omega⟩
    · obtain ⟨hb, hle, hge⟩ := ihr hr
      obtain ⟨hb', hle', hge'⟩ := hl.balance_shrunk (k := k) (v := v) hb hlr hrl (.inr ⟨hle, hge, rfl⟩)
      exact ⟨hb', hle', by omega⟩
    · obtain ⟨hb, hge, hle⟩ := hl.join hr hlr hrl
      exact ⟨hb, hle, by omega⟩

theorem Balanced.modify (ht : t.Balanced) (key : α) (f : β → β) :
    (t.modify key f).Balanced ∧ (t.modify key f).height = t.height := by
  induction t with
  | leaf => exact ⟨trivial, rfl⟩
  | node h k v l r ihl ihr =>
    obtain ⟨rfl, hlr, hrl, hl, hr⟩ := ht
    rw [AvlTree.modify]
    split
    · obtain ⟨hb, hh⟩ := ihl hl
      exact ⟨⟨by rw [hh], by rw [hh]; exact hlr, by rw [hh]; exact hrl, hb, hr⟩, rfl⟩
    · obtain ⟨hb, hh⟩ := ihr hr
      exact ⟨⟨by rw [hh], by rw [hh]; exact hlr, by rw [hh]; exact hrl, hl, hb⟩, rfl⟩
    · exact ⟨⟨rfl, hlr, hrl, hl, hr⟩, rfl⟩

theorem Balanced.erase_eq (ht : t.Balanced) (h : t.get? key = none) : t.erase key = t := by
  induction t with
  | leaf => rfl
  | node hgt k v l r ihl ihr =>
    obtain ⟨rfl, hlr, hrl, hl, hr⟩ := ht
    rw [AvlTree.get?] at h
    rw [AvlTree.erase]
    split at h
    · rw [ihl hl h, balance_eq_mk hlr hrl]
      rfl
    · rw [ihr hr h, balance_eq_mk hlr hrl]
      rfl
    · cases h

end

/-! ## Children that have to be there

The same operations, each of which gives nothing where a child that it takes for granted is missing. -/

/-- As `rotateRight`, with a left child that has to be there. -/
def rotateRight? (key : α) (value : β) (left right : AvlTree α β) : Option (AvlTree α β) :=
  match left with
  | node _ pivot pivotValue outer inner =>
    some (mk pivot pivotValue outer (mk key value inner right))
  | leaf => none

/-- As `rotateLeft`, with a right child that has to be there. -/
def rotateLeft? (key : α) (value : β) (left right : AvlTree α β) : Option (AvlTree α β) :=
  match right with
  | node _ pivot pivotValue inner outer =>
    some (mk pivot pivotValue (mk key value left inner) outer)
  | leaf => none

/-- As `balance`, with a child on the higher side that has to be there. -/
def balance? (key : α) (value : β) (left right : AvlTree α β) : Option (AvlTree α β) :=
  if right.height + 1 < left.height then
    match left with
    | node _ k v outer inner => do
      let left ← if outer.height < inner.height then rotateLeft? k v outer inner else some left
      rotateRight? key value left right
    | leaf => none
  else if left.height + 1 < right.height then
    match right with
    | node _ k v inner outer => do
      let right ← if outer.height < inner.height then rotateRight? k v inner outer else some right
      rotateLeft? key value left right
    | leaf => none
  else some (mk key value left right)

def splitMin? (key : α) (value : β) (left right : AvlTree α β) : Option ((α × β) × AvlTree α β) :=
  match left with
  | leaf => some ((key, value), right)
  | node _ k v l r => do
    let (first, rest) ← splitMin? k v l r
    return (first, ← balance? key value rest right)

def join? (left right : AvlTree α β) : Option (AvlTree α β) :=
  match left, right with
  | leaf, right => some right
  | left, leaf => some left
  | left, node _ k v l r => do
    let (first, rest) ← splitMin? k v l r
    balance? first.1 first.2 left rest

section

variable [Ord α]

/-- As `insert`, balanced at every node of the path, with the value that was there. -/
def insert? (t : AvlTree α β) (key : α) (value : β) : Option (Option β × AvlTree α β) :=
  match t with
  | leaf => some (none, node 1 key value leaf leaf)
  | node _ k v l r =>
    match compare key k with
    | .lt => do
      let (previous, l) ← l.insert? key value
      return (previous, ← balance? k v l r)
    | .gt => do
      let (previous, r) ← r.insert? key value
      return (previous, ← balance? k v l r)
    | .eq => return (some v, ← balance? k value l r)

def erase? (t : AvlTree α β) (key : α) : Option (Option β × AvlTree α β) :=
  match t with
  | leaf => some (none, leaf)
  | node _ k v l r =>
    match compare key k with
    | .lt => do
      let (previous, l) ← l.erase? key
      return (previous, ← balance? k v l r)
    | .gt => do
      let (previous, r) ← r.erase? key
      return (previous, ← balance? k v l r)
    | .eq => return (some v, ← join? l r)

end

theorem rotateRight?_eq (hl : 0 < l.height) : rotateRight? k v l r = some (rotateRight k v l r) := by
  cases l with
  | leaf => cases hl
  | node _ _ _ _ _ => rfl

theorem rotateLeft?_eq (hr : 0 < r.height) : rotateLeft? k v l r = some (rotateLeft k v l r) := by
  cases r with
  | leaf => cases hr
  | node _ _ _ _ _ => rfl

theorem height_rotateRight_pos (k : α) (v : β) (l r : AvlTree α β) : 0 < (rotateRight k v l r).height := by
  cases l <;> exact Nat.succ_pos _

theorem height_rotateLeft_pos (k : α) (v : β) (l r : AvlTree α β) : 0 < (rotateLeft k v l r).height := by
  cases r <;> exact Nat.succ_pos _

theorem balance?_eq (k : α) (v : β) (l r : AvlTree α β) :
    balance? k v l r = some (balance k v l r) := by
  unfold balance? balance
  split
  · cases l with
    | leaf =>
      rename_i h
      cases h
    | node h k' v' outer inner =>
      rename_i hheavy
      dsimp only
      split
      · rename_i hlt
        rw [rotateLeft?_eq (Nat.zero_lt_of_lt hlt)]
        exact rotateRight?_eq (height_rotateLeft_pos _ _ _ _)
      · exact rotateRight?_eq (Nat.zero_lt_of_lt hheavy)
  · split
    · cases r with
      | leaf =>
        rename_i h
        cases h
      | node h k' v' inner outer =>
        rename_i hheavy
        dsimp only
        split
        · rename_i hlt
          rw [rotateRight?_eq (Nat.zero_lt_of_lt hlt)]
          exact rotateLeft?_eq (height_rotateRight_pos _ _ _ _)
        · exact rotateLeft?_eq (Nat.zero_lt_of_lt hheavy)
    · rfl

theorem splitMin?_eq (k : α) (v : β) (l r : AvlTree α β) :
    splitMin? k v l r = some (splitMin k v l r) := by
  induction l generalizing k v r with
  | leaf => rfl
  | node h k' v' l' r' ihl _ => simp [splitMin?, splitMin, ihl, balance?_eq]

theorem join?_eq (l r : AvlTree α β) : join? l r = some (join l r) := by
  cases l with
  | leaf => rfl
  | node _ _ _ _ _ =>
    cases r with
    | leaf => rfl
    | node _ _ _ _ _ => simp [join?, join, splitMin?_eq, balance?_eq]

section

variable [Ord α]

theorem Balanced.insert?_eq (ht : t.Balanced) (key : α) (value : β) :
    t.insert? key value = some (t.get? key, t.insert key value) := by
  induction t with
  | leaf => rfl
  | node h k v l r ihl ihr =>
    obtain ⟨rfl, hlr, hrl, hl, hr⟩ := ht
    cases hc : compare key k with
    | lt => simp [insert?, AvlTree.insert, get?, hc, ihl hl, balance?_eq]
    | gt => simp [insert?, AvlTree.insert, get?, hc, ihr hr, balance?_eq]
    | eq => simp [insert?, AvlTree.insert, get?, hc, balance?_eq, balance_eq_mk hlr hrl, AvlTree.mk]

theorem erase?_eq (t : AvlTree α β) (key : α) : t.erase? key = some (t.get? key, t.erase key) := by
  induction t with
  | leaf => rfl
  | node h k v l r ihl ihr =>
    cases hc : compare key k with
    | lt => simp [erase?, erase, get?, hc, ihl, balance?_eq]
    | gt => simp [erase?, erase, get?, hc, ihr, balance?_eq]
    | eq => simp [erase?, erase, get?, hc, join?_eq]

end

end AvlTree

namespace AvlMap

/-! ## Maps -/

section

variable [Ord α] [Std.TransOrd α] [Std.LawfulEqOrd α] {m : AvlMap α β} {key other : α} {value : β}

open Entries

theorem get?_insert [DecidableEq α] (hm : m.Sorted) :
    (m.insert key value).2.get? other = if other = key then some value else m.get? other := by
  refine Option.ext fun x ↦ ?_
  rw [get?_eq_some hm.insert, toList_insert hm, List.mem_append, List.mem_cons]
  by_cases heq : other = key
  · subst heq
    simp [below, above, eq_comm]
  · rw [if_neg heq, get?_eq_some hm]
    simp only [below, above, List.mem_filter, beq_iff_eq, Prod.mk.injEq, heq, false_and, false_or]
    cases hc : compare other key with
    | lt => simp
    | gt => simp
    | eq => exact (heq (Std.LawfulEqOrd.eq_of_compare hc)).elim

theorem get?_erase [DecidableEq α] (hm : m.Sorted) :
    (m.erase key).2.get? other = if other = key then none else m.get? other := by
  cases hkey : m.get? key with
  | none =>
    have hsame : (m.erase key).2 = m := by rw [AvlMap.erase, hkey]
    rw [hsame]
    split
    · rename_i heq
      rw [heq, hkey]
    · rfl
  | some x =>
    refine Option.ext fun y ↦ ?_
    rw [get?_eq_some hm.erase, toList_erase hm ((fst_erase m key).trans hkey), List.mem_append]
    by_cases heq : other = key
    · subst heq
      simp [below, above]
    · rw [if_neg heq, get?_eq_some hm]
      simp only [below, above, List.mem_filter, beq_iff_eq]
      cases hc : compare other key with
      | lt => simp
      | gt => simp
      | eq => exact (heq (Std.LawfulEqOrd.eq_of_compare hc)).elim

theorem get?_modify [DecidableEq α] (hm : m.Sorted) (f : β → β) :
    (m.modify key f).get? other = if other = key then (m.get? key).map f else m.get? other := by
  refine Option.ext fun y ↦ ?_
  rw [get?_eq_some (hm.modify f), toList_modify hm, replaceAt, List.mem_map]
  constructor
  · rintro ⟨p, hp, hpy⟩
    split at hpy
    · rename_i hc
      obtain ⟨rfl, rfl⟩ := Prod.mk.inj hpy
      obtain hc := Std.LawfulEqOrd.eq_of_compare hc
      rw [if_pos hc, ← hc, (get?_eq_some hm).2 hp]
      rfl
    · rename_i hc
      subst hpy
      rw [if_neg, get?_eq_some hm]
      · exact hp
      · rintro rfl
        exact hc Std.ReflCmp.compare_self
  · intro hy
    split at hy
    · rename_i heq
      subst heq
      obtain ⟨x, hx, rfl⟩ := Option.map_eq_some_iff.1 hy
      exact ⟨(other, x), (get?_eq_some hm).1 hx, by simp⟩
    · rename_i hne
      refine ⟨(other, y), (get?_eq_some hm).1 hy, ?_⟩
      rw [if_neg]
      exact fun hc ↦ hne (Std.LawfulEqOrd.eq_of_compare hc)

end

/-- What can be done to a map. -/
inductive Operation (α β : Type) where
  | insert (key : α) (value : β)
  | erase (key : α)
  /-- Changes the value at a key in place, if there is one. -/
  | modify (key : α) (f : β → β)

namespace Operation

/-- The value that was there, and the map that results. -/
def perform [Ord α] : Operation α β → AvlMap α β → Option β × AvlMap α β
  | insert key value, m => m.insert key value
  | erase key, m => m.erase key
  | modify key f, m => (m.get? key, m.modify key f)

/-- As `perform`, where every child that is taken for granted has to be there. -/
def perform? [Ord α] : Operation α β → AvlMap α β → Option (Option β × AvlMap α β)
  | insert key value, m => do
    let (previous, root) ← m.root.insert? key value
    return (previous, ⟨root, if previous.isSome then m.size else m.size + 1⟩)
  | erase key, m => do
    let (previous, root) ← m.root.erase? key
    return (previous, ⟨root, if previous.isSome then m.size - 1 else m.size⟩)
  | modify key f, m => some (m.get? key, m.modify key f)

def reference [DecidableEq α] : Operation α β → (Finmap fun _ : α ↦ β) →
    Option β × Finmap fun _ : α ↦ β
  | insert key value, m => (m.lookup key, m.insert key value)
  | erase key, m => (m.lookup key, m.erase key)
  | modify key f, m => (m.lookup key, (m.lookup key).elim m fun v ↦ m.insert key (f v))

end Operation

/-- The answers to some operations one after another, and what becomes of the state in the end. -/
def trace {ω σ ρ : Type} (step : ω → σ → ρ × σ) : List ω → σ → List ρ × σ
  | [], s => ([], s)
  | op :: ops, s =>
    let (answer, s) := step op s
    let (answers, s) := trace step ops s
    (answer :: answers, s)

variable [Ord α] [Std.TransOrd α] [Std.LawfulEqOrd α] [DecidableEq α] {m : AvlMap α β}
  {ref : Finmap fun _ : α ↦ β}

/-- The map is in order, and has the entries of the finite map. -/
structure Represents (m : AvlMap α β) (ref : Finmap fun _ : α ↦ β) : Prop where
  sorted : m.Sorted
  balanced : m.root.Balanced
  get?_eq : ∀ key, m.get? key = ref.lookup key
  size_eq : m.size = ref.keys.card

omit [Std.TransOrd α] [Std.LawfulEqOrd α] in
theorem represents_empty : (∅ : AvlMap α β).Represents ∅ where
  sorted := List.Pairwise.nil
  balanced := trivial
  get?_eq key := by rw [Finmap.lookup_empty]; rfl
  size_eq := rfl

omit [Ord α] [Std.TransOrd α] [Std.LawfulEqOrd α] in
theorem keys_insert (key : α) (value : β) (ref : Finmap fun _ : α ↦ β) :
    (ref.insert key value).keys = Insert.insert key ref.keys := by
  ext k
  simp [Finmap.mem_keys]

theorem Represents.insert (h : m.Represents ref) (key : α) (value : β) :
    (m.insert key value).2.Represents (ref.insert key value) where
  sorted := h.sorted.insert
  balanced := (h.balanced.insert key value).1
  get?_eq k := by
    rw [get?_insert h.sorted]
    split
    · rename_i heq
      rw [heq, Finmap.lookup_insert]
    · rename_i hne
      rw [Finmap.lookup_insert_of_ne _ hne, h.get?_eq]
  size_eq := by
    rw [keys_insert]
    change (if (m.get? key).isSome then m.size else m.size + 1) = _
    rw [h.get?_eq, h.size_eq]
    split
    · rename_i hsome
      rw [Finset.insert_eq_self.2 (Finmap.mem_keys.2 (Finmap.lookup_isSome.1 hsome))]
    · rename_i hnone
      rw [Finset.card_insert_of_notMem]
      exact fun hmem ↦ hnone (Finmap.lookup_isSome.2 (Finmap.mem_keys.1 hmem))

theorem Represents.erase (h : m.Represents ref) (key : α) :
    (m.erase key).2.Represents (ref.erase key) where
  sorted := h.sorted.erase
  balanced := by
    unfold AvlMap.erase
    split
    · exact h.balanced
    · exact (h.balanced.erase key).1
  get?_eq k := by
    rw [get?_erase h.sorted]
    split
    · rename_i heq
      rw [heq, Finmap.lookup_erase]
    · rename_i hne
      rw [Finmap.lookup_erase_ne hne, h.get?_eq]
  size_eq := by
    rw [Finmap.keys_erase]
    unfold AvlMap.erase
    split
    · rename_i hnone
      rw [Finset.erase_eq_of_notMem, h.size_eq]
      rw [Finmap.mem_keys, ← Finmap.lookup_eq_none, ← h.get?_eq]
      exact hnone
    · rename_i x hsome
      rw [Finset.card_erase_of_mem, ← h.size_eq]
      rw [Finmap.mem_keys, ← Finmap.lookup_isSome, ← h.get?_eq, hsome]
      rfl

theorem Represents.modify (h : m.Represents ref) (key : α) (f : β → β) :
    (m.modify key f).Represents ((ref.lookup key).elim ref fun v ↦ ref.insert key (f v)) where
  sorted := h.sorted.modify f
  balanced := (h.balanced.modify key f).1
  get?_eq k := by
    rw [get?_modify h.sorted, h.get?_eq, h.get?_eq]
    cases hkey : ref.lookup key with
    | none =>
      split
      · rename_i heq
        rw [heq]
        exact hkey.symm
      · rfl
    | some x =>
      dsimp only [Option.elim_some]
      split
      · rename_i heq
        rw [heq, Finmap.lookup_insert]
        rfl
      · rename_i hne
        rw [Finmap.lookup_insert_of_ne _ hne]
  size_eq := by
    change m.size = _
    rw [h.size_eq]
    cases hkey : ref.lookup key with
    | none => rfl
    | some x =>
      dsimp only [Option.elim_some]
      rw [keys_insert, Finset.insert_eq_self.2]
      exact Finmap.mem_keys.2 (Finmap.mem_of_lookup_eq_some hkey)

theorem Represents.perform (h : m.Represents ref) (op : Operation α β) :
    (op.perform m).1 = (op.reference ref).1 ∧ (op.perform m).2.Represents (op.reference ref).2 := by
  cases op with
  | insert key value => exact ⟨h.get?_eq key, h.insert key value⟩
  | erase key => exact ⟨(fst_erase m key).trans (h.get?_eq key), h.erase key⟩
  | modify key f => exact ⟨h.get?_eq key, h.modify key f⟩

theorem Represents.trace (h : m.Represents ref) (ops : List (Operation α β)) :
    (trace Operation.perform ops m).1 = (trace Operation.reference ops ref).1 ∧
      (trace Operation.perform ops m).2.Represents (trace Operation.reference ops ref).2 := by
  induction ops generalizing m ref with
  | nil => exact ⟨rfl, h⟩
  | cons op ops ih =>
    obtain ⟨hanswer, hnext⟩ := h.perform op
    obtain ⟨hanswers, hend⟩ := ih hnext
    refine ⟨?_, hend⟩
    change (op.perform m).1 :: (AvlMap.trace Operation.perform ops (op.perform m).2).1 =
      (op.reference ref).1 :: (AvlMap.trace Operation.reference ops (op.reference ref).2).1
    rw [hanswer, hanswers]

omit [Std.TransOrd α] [Std.LawfulEqOrd α] [DecidableEq α] in
theorem perform?_eq (hm : m.root.Balanced) (op : Operation α β) :
    op.perform? m = some (op.perform m) := by
  cases op with
  | insert key value =>
    rw [Operation.perform?, hm.insert?_eq]
    rfl
  | erase key =>
    rw [Operation.perform?, AvlTree.erase?_eq, Operation.perform, AvlMap.erase]
    cases hkey : m.get? key with
    | none =>
      have hroot : m.root.get? key = none := hkey
      simp [hroot, hm.erase_eq hroot]
    | some x =>
      have hroot : m.root.get? key = some x := hkey
      simp [hroot]
  | modify key f => rfl

/-- A map answers any operations as the finite map does that undergoes the same ones, and then has its
entries and its size. Its tree is in order and balanced, and no further operation misses a child that it
takes for granted. -/
theorem trace_eq_reference (ops : List (Operation α β)) :
    let run := AvlMap.trace Operation.perform ops (∅ : AvlMap α β)
    let ref := AvlMap.trace Operation.reference ops ∅
    run.1 = ref.1 ∧ (∀ key, run.2.get? key = ref.2.lookup key) ∧
      (∀ key, run.2.contains key = true ↔ key ∈ ref.2) ∧ run.2.size = ref.2.keys.card ∧
      (run.2.isEmpty = true ↔ ref.2 = ∅) ∧ run.2.Sorted ∧ run.2.root.Balanced ∧
      ∀ op : Operation α β, op.perform? run.2 = some (op.perform run.2) := by
  obtain ⟨hanswers, h⟩ := (represents_empty (α := α) (β := β)).trace ops
  refine ⟨hanswers, h.get?_eq, fun key ↦ ?_, h.size_eq, ?_, h.sorted, h.balanced, perform?_eq h.balanced⟩
  · rw [AvlMap.contains, h.get?_eq, Finmap.lookup_isSome]
  · rw [AvlMap.isEmpty, beq_iff_eq, h.size_eq, Finset.card_eq_zero]
    constructor
    · intro hkeys
      refine Finmap.ext_lookup fun key ↦ ?_
      rw [Finmap.lookup_empty, Finmap.lookup_eq_none, ← Finmap.mem_keys, hkeys]
      exact Finset.notMem_empty key
    · intro hempty
      rw [hempty, Finmap.keys_empty]

/-- Three keys in ascending order, the first of which is then taken out again. -/
theorem trace_eq_reference_ascending :
    (AvlMap.trace Operation.perform [.insert 1 "a", .insert 2 "b", .insert 3 "c", .erase 1]
      (∅ : AvlMap Nat String)).2.size =
      (AvlMap.trace Operation.reference [.insert 1 "a", .insert 2 "b", .insert 3 "c", .erase 1]
        (∅ : Finmap fun _ : Nat ↦ String)).2.keys.card ∧
    (AvlMap.trace Operation.perform [.insert 1 "a", .insert 2 "b", .insert 3 "c", .erase 1]
      (∅ : AvlMap Nat String)).2.root.Balanced :=
  have h := trace_eq_reference [.insert 1 "a", .insert 2 "b", .insert 3 "c", .erase 1]
  ⟨h.2.2.2.1, h.2.2.2.2.2.2.1⟩

end AvlMap

end Symex
