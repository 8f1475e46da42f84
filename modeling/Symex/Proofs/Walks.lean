import Symex.Proofs.BalancedTrees

namespace Symex

variable {α β : Type}

/-- Which way a walk goes. -/
inductive Direction where
  | ascending
  | descending

/-- The entries of a tree in the order of a walk. -/
def AvlTree.along (t : AvlTree α β) : Direction → List (α × β)
  | .ascending => t.toList
  | .descending => t.toList.reverse

/-- A walk under way. On the stack are the entries whose turn comes once those before them are done, the next one
first, each with the part of the tree that follows it at once. -/
structure Walk (α β : Type) where
  direction : Direction
  stack : List ((α × β) × AvlTree α β)

namespace Walk

/-- Puts the entries on the way to the first one of a tree on the stack. -/
def spine (direction : Direction) (t : AvlTree α β) (stack : List ((α × β) × AvlTree α β)) :
    List ((α × β) × AvlTree α β) :=
  match t with
  | .leaf => stack
  | .node _ k v l r =>
    match direction with
    | .ascending => spine .ascending l (((k, v), r) :: stack)
    | .descending => spine .descending r (((k, v), l) :: stack)

def next? (w : Walk α β) : Option ((α × β) × Walk α β) :=
  match w.stack with
  | [] => none
  | (p, beyond) :: stack => some (p, { w with stack := spine w.direction beyond stack })

/-- The walk meets just these entries, in this order. -/
inductive Yields : Walk α β → List (α × β) → Prop
  | done {w : Walk α β} (h : w.next? = none) : Yields w []
  | step {w w' : Walk α β} {p : α × β} {rest : List (α × β)} (h : w.next? = some (p, w'))
    (hrest : Yields w' rest) : Yields w (p :: rest)

def pending (w : Walk α β) : List (α × β) := w.stack.flatMap fun q ↦ q.1 :: q.2.along w.direction

theorem pending_spine (direction : Direction) (t : AvlTree α β) (stack : List ((α × β) × AvlTree α β)) :
    pending ⟨direction, spine direction t stack⟩ = t.along direction ++ pending ⟨direction, stack⟩ := by
  induction t generalizing stack with
  | leaf => cases direction <;> rfl
  | node h k v l r ihl ihr =>
    cases direction with
    | ascending =>
      rw [spine, ihl]
      simp [pending, AvlTree.along]
    | descending =>
      rw [spine, ihr]
      simp [pending, AvlTree.along]

theorem next?_eq (w : Walk α β) :
    w.pending = [] ∧ w.next? = none ∨
      ∃ p w', w.next? = some (p, w') ∧ w.pending = p :: w'.pending ∧ w'.direction = w.direction := by
  obtain ⟨direction, _ | ⟨⟨p, beyond⟩, stack⟩⟩ := w
  · exact .inl ⟨rfl, rfl⟩
  · exact .inr ⟨p, _, rfl, by rw [pending_spine]; rfl, rfl⟩

theorem yields_pending (w : Walk α β) : w.Yields w.pending := by
  generalize hl : w.pending = l
  induction l generalizing w with
  | nil =>
    obtain ⟨-, hnext⟩ | ⟨p, w', -, hp, -⟩ := w.next?_eq
    · exact .done hnext
    · cases hl.symm.trans hp
  | cons p l ih =>
    obtain ⟨hnil, -⟩ | ⟨p', w', hnext, hp, -⟩ := w.next?_eq
    · cases hl.symm.trans hnil
    · obtain ⟨rfl, hrest⟩ := List.cons.inj (hl.symm.trans hp)
      exact .step hnext (ih w' hrest.symm)

section

variable [Ord α] (key : α)

/-- Puts the entries up to `key` on the way to it on the stack. -/
def floorSpine (t : AvlTree α β) (stack : List ((α × β) × AvlTree α β)) : List ((α × β) × AvlTree α β) :=
  match t with
  | .leaf => stack
  | .node _ k v l r =>
    match compare k key with
    | .gt => floorSpine l stack
    | _ => floorSpine r (((k, v), l) :: stack)

/-- Puts the entries above `key` on the way to it on the stack. -/
def ceilingSpine (t : AvlTree α β) (stack : List ((α × β) × AvlTree α β)) : List ((α × β) × AvlTree α β) :=
  match t with
  | .leaf => stack
  | .node _ k v l r =>
    match compare k key with
    | .gt => ceilingSpine l (((k, v), r) :: stack)
    | _ => ceilingSpine r stack

theorem pending_floorSpine (t : AvlTree α β) (stack : List ((α × β) × AvlTree α β)) :
    pending ⟨.descending, floorSpine key t stack⟩ = t.downFrom key (pending ⟨.descending, stack⟩) := by
  induction t generalizing stack with
  | leaf => rfl
  | node h k v l r ihl ihr =>
    cases hk : compare k key with
    | gt => simpa only [floorSpine, AvlTree.downFrom, hk] using ihl stack
    | lt | eq =>
      simp only [floorSpine, AvlTree.downFrom, hk, ihr, AvlTree.descending_eq]
      rfl

theorem pending_ceilingSpine (t : AvlTree α β) (stack : List ((α × β) × AvlTree α β)) :
    pending ⟨.ascending, ceilingSpine key t stack⟩ = t.upAfter key (pending ⟨.ascending, stack⟩) := by
  induction t generalizing stack with
  | leaf => rfl
  | node h k v l r ihl ihr =>
    cases hk : compare k key with
    | gt =>
      simp only [ceilingSpine, AvlTree.upAfter, hk, ihl, AvlTree.ascending_eq]
      rfl
    | lt | eq => simpa only [ceilingSpine, AvlTree.upAfter, hk] using ihr stack

end

end Walk

namespace AvlMap

variable {m : AvlMap α β}

def walk (m : AvlMap α β) : Walk α β := ⟨.ascending, Walk.spine .ascending m.root []⟩

theorem yields_walk (m : AvlMap α β) : m.walk.Yields m.toList := by
  have h : m.walk.pending = m.toList := by
    rw [walk, Walk.pending_spine, toList_eq]
    exact List.append_nil _
  exact h ▸ m.walk.yields_pending

variable [Ord α] {key : α}

def walkDown (m : AvlMap α β) (key : α) : Walk α β := ⟨.descending, Walk.floorSpine key m.root []⟩

def walkUp (m : AvlMap α β) (key : α) : Walk α β := ⟨.ascending, Walk.ceilingSpine key m.root []⟩

theorem yields_walkDown (m : AvlMap α β) (key : α) : (m.walkDown key).Yields (m.downFrom key) := by
  have h : (m.walkDown key).pending = m.downFrom key := Walk.pending_floorSpine key m.root []
  exact h ▸ (m.walkDown key).yields_pending

theorem yields_walkUp (m : AvlMap α β) (key : α) : (m.walkUp key).Yields (m.upAfter key) := by
  have h : (m.walkUp key).pending = m.upAfter key := Walk.pending_ceilingSpine key m.root []
  exact h ▸ (m.walkUp key).yields_pending

variable [Std.TransOrd α] [Std.LawfulEqOrd α]

theorem reverse_downFrom_append_upAfter (hm : m.Sorted) (key : α) :
    (m.downFrom key).reverse ++ m.upAfter key = m.toList := by
  have hall : m.toList.Pairwise fun p q ↦ compare p.1 q.1 = .lt := hm
  have hdown : (m.downFrom key).Pairwise fun p q ↦ compare q.1 p.1 = .lt := pairwise_downFrom hm hm
  have hup : (m.upAfter key).Pairwise fun p q ↦ compare p.1 q.1 = .lt := pairwise_upAfter hm hm
  have hboth : ((m.downFrom key).reverse ++ m.upAfter key).Pairwise fun p q ↦ compare p.1 q.1 = .lt := by
    refine List.pairwise_append.2 ⟨List.pairwise_reverse.2 hdown, hup, fun p hp q hq ↦ ?_⟩
    have hle : compare p.1 key ≠ .gt := ((mem_downFrom hm).1 (List.mem_reverse.1 hp)).2
    have hlt : compare key q.1 = .lt := Std.OrientedCmp.gt_iff_lt.1 ((mem_upAfter hm).1 hq).2
    cases hc : compare p.1 key with
    | lt => exact Std.TransCmp.lt_trans hc hlt
    | eq => rwa [Std.LawfulEqOrd.eq_of_compare hc]
    | gt => exact (hle hc).elim
  have hirrefl : ∀ p : α × β, compare p.1 p.1 ≠ .lt := fun p ↦ by simp
  -- lists in the same strict order are equal if they have the same members
  have hanti {l l' : List (α × β)} : ∀ p q, p ∈ l → q ∈ l' → compare p.1 q.1 = .lt → compare q.1 p.1 = .lt → p = q :=
    fun p _ _ _ hpq hqp ↦ (hirrefl p (Std.TransCmp.lt_trans hpq hqp)).elim
  refine List.Perm.eq_of_pairwise hanti hboth hall ?_
  have hnodup : ∀ {l : List (α × β)}, l.Pairwise (fun p q ↦ compare p.1 q.1 = .lt) → l.Nodup := by
    intro l h
    refine h.imp ?_
    rintro p q hlt rfl
    exact hirrefl p hlt
  refine (List.perm_ext_iff_of_nodup (hnodup hboth) (hnodup hall)).2 fun p ↦ ?_
  rw [List.mem_append, List.mem_reverse, mem_downFrom hm, mem_upAfter hm]
  tauto

theorem head?_downFrom (hm : m.Sorted) (key : α) : (m.downFrom key).head? = m.floor? key := by
  rw [downFrom_eq hm, floor?_eq hm, List.head?_append, List.head?_reverse]
  cases Entries.at? key m.toList with
  | none => rfl
  | some p => rfl

/-- What walks through a map with the entries of `ref` meet, and what is found below a key. -/
structure Ranged [DecidableEq α] (m : AvlMap α β) (ref : Finmap fun _ : α ↦ β) (key : α) : Prop where
  entries : ∀ k v, (k, v) ∈ m.toList ↔ ref.lookup k = some v
  ascending : m.toList.Pairwise fun p q ↦ compare p.1 q.1 = .lt
  down : ∀ k v, (k, v) ∈ m.downFrom key ↔ ref.lookup k = some v ∧ compare k key ≠ .gt
  descending : (m.downFrom key).Pairwise fun p q ↦ compare q.1 p.1 = .lt
  up : ∀ k v, (k, v) ∈ m.upAfter key ↔ ref.lookup k = some v ∧ compare k key = .gt
  ascending_up : (m.upAfter key).Pairwise fun p q ↦ compare p.1 q.1 = .lt
  together : (m.downFrom key).reverse ++ m.upAfter key = m.toList
  floor : ∀ k v, m.floor? key = some (k, v) ↔ ref.lookup k = some v ∧ compare k key ≠ .gt ∧
    ∀ k' ∈ ref, compare k' key ≠ .gt → compare k' k ≠ .gt
  no_floor : m.floor? key = none ↔ ∀ k ∈ ref, compare k key = .gt
  head_down : (m.downFrom key).head? = m.floor? key
  walk : m.walk.Yields m.toList
  walkDown : (m.walkDown key).Yields (m.downFrom key)
  walkUp : (m.walkUp key).Yields (m.upAfter key)

variable [DecidableEq α] {ref : Finmap fun _ : α ↦ β}

theorem Represents.mem_toList (h : m.Represents ref) {k : α} {v : β} :
    (k, v) ∈ m.toList ↔ ref.lookup k = some v := by
  rw [← get?_eq_some h.sorted, h.get?_eq]

theorem Represents.ranged (h : m.Represents ref) (key : α) : m.Ranged ref key where
  entries _ _ := h.mem_toList
  ascending := h.sorted
  down k v := by rw [mem_downFrom h.sorted, h.mem_toList]
  descending := pairwise_downFrom h.sorted h.sorted
  up k v := by rw [mem_upAfter h.sorted, h.mem_toList]
  ascending_up := pairwise_upAfter h.sorted h.sorted
  together := reverse_downFrom_append_upAfter h.sorted key
  floor k v := by
    constructor
    · intro hfloor
      obtain ⟨hmem, hle, hgreatest⟩ := floor?_eq_some h.sorted hfloor
      refine ⟨h.mem_toList.1 hmem, hle, fun k' hk' hle' ↦ ?_⟩
      obtain ⟨v', hv'⟩ := Option.isSome_iff_exists.1 (Finmap.lookup_isSome.2 hk')
      obtain heq | hlt := hgreatest (k', v') (h.mem_toList.2 hv') hle'
      · cases heq
        simp
      · simp [hlt]
    · rintro ⟨hv, hle, hgreatest⟩
      cases hfloor : m.floor? key with
      | none => exact (hle (floor?_eq_none h.sorted hfloor _ (h.mem_toList.2 hv))).elim
      | some p =>
        obtain ⟨hmem, hle', hall⟩ := floor?_eq_some h.sorted hfloor
        obtain heq | hlt := hall (k, v) (h.mem_toList.2 hv) hle
        · rw [heq]
        · have hp : p.1 ∈ ref := Finmap.lookup_isSome.1 (by rw [h.mem_toList.1 hmem]; rfl)
          exact (hgreatest p.1 hp hle' (Std.OrientedCmp.gt_of_lt hlt)).elim
  no_floor := by
    constructor
    · intro hnone k hk
      obtain ⟨v, hv⟩ := Option.isSome_iff_exists.1 (Finmap.lookup_isSome.2 hk)
      exact floor?_eq_none h.sorted hnone (k, v) (h.mem_toList.2 hv)
    · intro hall
      rw [Option.eq_none_iff_forall_ne_some]
      intro p hfloor
      obtain ⟨hmem, hle, -⟩ := floor?_eq_some h.sorted hfloor
      exact hle (hall p.1 (Finmap.lookup_isSome.1 (by rw [h.mem_toList.1 hmem]; rfl)))
  head_down := head?_downFrom h.sorted key
  walk := m.yields_walk
  walkDown := m.yields_walkDown key
  walkUp := m.yields_walkUp key

/-- After any operations walks from any key on meet exactly the entries that the finite map has on that side, and
what is found below the key is the greatest of them. -/
theorem ranged_of_trace (ops : List (Operation α β)) (key : α) :
    (AvlMap.trace Operation.perform ops (∅ : AvlMap α β)).2.Ranged
      (AvlMap.trace Operation.reference ops ∅).2 key :=
  (represents_empty.trace ops).2.ranged key

/-- Where the key itself was taken out, the way down starts at the one before it. -/
theorem ranged_of_trace_gap :
    (AvlMap.trace Operation.perform [.insert 10 "a", .insert 20 "b", .insert 30 "c", .erase 20]
      (∅ : AvlMap Nat String)).2.Ranged
      (AvlMap.trace Operation.reference [.insert 10 "a", .insert 20 "b", .insert 30 "c", .erase 20]
        (∅ : Finmap fun _ : Nat ↦ String)).2 20 ∧
    (AvlMap.trace Operation.perform [.insert 10 "a", .insert 20 "b", .insert 30 "c", .erase 20]
      (∅ : AvlMap Nat String)).2.floor? 20 = some (10, "a") :=
  ⟨ranged_of_trace _ 20, by decide⟩

end AvlMap

end Symex
