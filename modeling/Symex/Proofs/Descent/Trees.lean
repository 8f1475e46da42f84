import Mathlib.Algebra.Ring.Nat
import Mathlib.Data.List.Sort
import Mathlib.Logic.Relation
import Symex.Proofs.Constraints
import Symex.Proofs.Forks

namespace Symex

theorem sum_map_set_add {α : Type} (f : α → Nat) (b : α) {a : α} {l : List α} {i : Nat} (h : l[i]? = some a) :
    ((l.set i b).map f).sum + f a = (l.map f).sum + f b := by
  induction l generalizing i with
  | nil => simp at h
  | cons c l ih =>
    cases i with
    | zero =>
      obtain rfl : c = a := by simpa using h
      rw [List.set_cons_zero, List.map_cons, List.map_cons, List.sum_cons, List.sum_cons]
      omega
    | succ i =>
      have hi := ih (i := i) (by simpa using h)
      rw [List.set_cons_succ, List.map_cons, List.map_cons, List.sum_cons, List.sum_cons]
      omega

def ProcessNode.without (p : ProcessNode) (n : NodeId) : ProcessNode :=
  { p with children := p.children.filter (· ≠ n) }

namespace ProcessTree

variable {t t' : ProcessTree} {n m k l r : NodeId} {p : ProcessNode} {s left right : StateId}

/-! ## Nodes and operations -/

theorem lt_size_of_isSome (h : (t.node? n).isSome) : n < t.nodes.size := by
  by_contra hlt
  rw [node?, Array.getElem?_eq_none (Nat.le_of_not_lt hlt)] at h
  exact absurd h (by simp)

theorem isLeaf_iff_node? : t.isLeaf n = true ↔ ∃ p, t.node? n = some p ∧ p.children = [] := by
  simp [isLeaf, Option.any_eq_true]

theorem node?_modify (t : ProcessTree) (f : ProcessNode → ProcessNode) (n m : NodeId) :
    (t.modify n f).node? m = if n = m then (t.node? m).map f else t.node? m := by
  rw [node?, modify, Array.getElem?_modify]
  split
  · cases h : t.nodes[m]? <;> simp [node?, h]
  · rfl

theorem links_eq (t : ProcessTree) :
    t.links = (t.nodes.toList.map fun o ↦ (o.map (·.parents.length)).getD 0).sum := rfl

theorem links_modify (t : ProcessTree) {f : ProcessNode → ProcessNode} (n : NodeId)
    (hf : ∀ p, (f p).parents = p.parents) : (t.modify n f).links = t.links := by
  have hmap : ∀ o : Option ProcessNode, ((o.map f).map (·.parents.length)).getD 0 =
      (o.map (·.parents.length)).getD 0 := by
    intro o
    cases o with
    | none => rfl
    | some p => simp [hf]
  rw [links_eq, links_eq]
  refine congrArg List.sum (List.ext_getElem? fun i ↦ ?_)
  simp only [modify, List.getElem?_map, Array.getElem?_toList, Array.getElem?_modify]
  split
  · cases h : t.nodes[i]? with
    | none => rfl
    | some o => exact congrArg some (hmap o)
  · rfl

def remove (t : ProcessTree) (n : NodeId) : ProcessTree := ⟨t.nodes.setIfInBounds n none⟩

theorem node?_remove (t : ProcessTree) (n m : NodeId) :
    (t.remove n).node? m = if n = m then none else t.node? m := by
  rw [node?, remove, Array.getElem?_setIfInBounds]
  split
  · split <;> rfl
  · rfl

theorem links_remove (h : t.node? n = some p) : (t.remove n).links + p.parents.length = t.links := by
  have hn : t.nodes.toList[n]? = some (some p) := by
    simpa [node?, Option.join_eq_some_iff] using h
  have hset := sum_map_set_add (fun o : Option ProcessNode ↦ (o.map (·.parents.length)).getD 0) none hn
  simpa [links_eq, remove] using hset

theorem node?_foldl_modify (f : ProcessNode → ProcessNode) {ps : List NodeId} (hps : ps.Nodup)
    (t : ProcessTree) (m : NodeId) :
    (ps.foldl (fun t p ↦ t.modify p f) t).node? m = if m ∈ ps then (t.node? m).map f else t.node? m := by
  induction ps generalizing t with
  | nil => simp
  | cons p ps ih =>
    rw [List.nodup_cons] at hps
    rw [List.foldl_cons, ih hps.2, node?_modify]
    by_cases hp : p = m
    · subst hp
      simp [hps.1]
    · simp [hp, Ne.symm hp]

theorem size_foldl_modify (f : ProcessNode → ProcessNode) (ps : List NodeId) (t : ProcessTree) :
    (ps.foldl (fun t p ↦ t.modify p f) t).nodes.size = t.nodes.size := by
  induction ps generalizing t with
  | nil => rfl
  | cons p ps ih =>
    rw [List.foldl_cons, ih, modify, Array.size_modify]

theorem nodes_size_add (t : ProcessTree) (ps : List NodeId) (s : StateId) :
    (t.add ps s).2.nodes.size = t.nodes.size + 1 := by
  simp only [add, Array.size_push, size_foldl_modify]

theorem node?_add {ps : List NodeId} (hps : ps.Nodup) (t : ProcessTree) (s : StateId) (m : NodeId) :
    (t.add ps s).2.node? m =
      if m = t.nodes.size then some { parents := ps, state := some s }
      else if m ∈ ps then
        (t.node? m).map fun p ↦ { p with children := p.children ++ [t.nodes.size], state := none }
      else t.node? m := by
  rw [node?, add, Array.getElem?_push, size_foldl_modify]
  split
  · rfl
  · rw [← node?_foldl_modify _ hps, node?]

theorem node?_disown (t : ProcessTree) (parent n m : NodeId) :
    (t.disown parent n).1.node? m = if parent = m then (t.node? m).map (·.without n) else t.node? m :=
  node?_modify t _ parent m

theorem foldl_disown (n : NodeId) (ps pending : List NodeId) (t : ProcessTree) {r : List NodeId × ProcessTree}
    (hr : ps.foldl (fun (pending, t) p ↦
      let (t, last) := t.disown p n
      (if last then p :: pending else pending, t)) (pending, t) = r) :
    (∀ m, r.2.node? m = if m ∈ ps then (t.node? m).map (·.without n) else t.node? m) ∧
      (∀ m, m ∈ r.1 ↔ m ∈ pending ∨ (m ∈ ps ∧ r.2.isLeaf m = true)) ∧
      r.1.length ≤ pending.length + ps.length ∧ r.2.links = t.links ∧ r.2.nodes.size = t.nodes.size := by
  induction ps generalizing pending t with
  | nil =>
    subst hr
    simp
  | cons p ps ih =>
    obtain ⟨hnode, hpending, hlength, hlinks, hsize⟩ :=
      ih (if (t.disown p n).2 then p :: pending else pending) (t.disown p n).1 hr
    -- to take the child away once more changes nothing
    have htwice : ∀ o : Option ProcessNode, (o.map (·.without n)).map (·.without n) = o.map (·.without n) := by
      intro o
      cases o with
      | none => rfl
      | some q => simp [ProcessNode.without]
    have hkeep : r.2.node? p = (t.disown p n).1.node? p := by
      rw [hnode, node?_disown, if_pos rfl, htwice, ite_self]
    have hleaf : (t.disown p n).2 = r.2.isLeaf p := by
      rw [isLeaf, hkeep]
      rfl
    refine ⟨fun m ↦ ?_, fun m ↦ ?_, ?_, ?_, ?_⟩
    · by_cases hp : p = m
      · subst hp
        rw [hkeep, node?_disown, if_pos rfl, if_pos List.mem_cons_self]
      · rw [hnode, node?_disown, if_neg hp]
        simp [Ne.symm hp]
    · rw [hpending, hleaf, List.mem_cons]
      by_cases hm : m = p
      · subst hm
        split <;> simp_all
      · split <;> simp [hm]
    · rw [List.length_cons]
      have hle : (if (t.disown p n).2 then p :: pending else pending).length ≤ pending.length + 1 := by
        split <;> simp
      omega
    · exact hlinks.trans (links_modify _ _ fun _ ↦ rfl)
    · rw [hsize, disown, modify, Array.size_modify]

/-! ## What has happened -/

/-- The leaves of the states that are live, the nodes that merges absorbed, and all links from a parent to
a child that there ever were. -/
structure History where
  live : List (NodeId × StateId)
  absorbed : List NodeId := []
  links : List (NodeId × NodeId) := []

namespace History

/-- A leaf comes up below nodes that hold no states any more. -/
def add (h : History) (parents : List NodeId) (n : NodeId) (s : StateId) : History :=
  { h with
    live := h.live.filter (·.1 ∉ parents) ++ [(n, s)]
    links := h.links ++ parents.map (·, n) }

def split (h : History) (n l r : NodeId) (left right : StateId) : History :=
  (h.add [n] l left).add [n] r right

def merge (h : History) (first second n : NodeId) (s : StateId) : History :=
  { h.add [first, second] n s with absorbed := first :: second :: h.absorbed }

def terminate (h : History) (n : NodeId) : History := { h with live := h.live.filter (·.1 ≠ n) }

def Above (h : History) (m n : NodeId) : Prop := (m, n) ∈ h.links

end History

/-- Trees that come from a first state by operations on live leaves, and by terminations of absorbed nodes. -/
inductive Grown : History → ProcessTree → Prop
  | start (s : StateId) : Grown { live := [(root, s)] } (ofState s)
  | split {h t n s left right l r t'} : Grown h t → (n, s) ∈ h.live →
      t.split n left right = .ok ((l, r), t') → Grown (h.split n l r left right) t'
  | merge {h t n s m s' st k t'} : Grown h t → (n, s) ∈ h.live → (m, s') ∈ h.live → n ≠ m →
      t.merge n m st = .ok (k, t') → Grown (h.merge n m k st) t'
  | terminate {h t n s} : Grown h t → (n, s) ∈ h.live → Grown (h.terminate n) (t.terminate n)
  | release {h t n} : Grown h t → n ∈ h.absorbed → Grown h (t.terminate n)

variable {h : History} {pending : List NodeId}

/-- Links lead both ways between nodes that are left, and only live leaves, and nodes that are still to be
removed, have nothing below them. -/
structure Linked (h : History) (pending : List NodeId) (t : ProcessTree) : Prop where
  ordered : ∀ m n, (m, n) ∈ h.links → m < n ∧ n < t.nodes.size
  parents : ∀ n p, t.node? n = some p → ∀ m, m ∈ p.parents ↔ (m, n) ∈ h.links
  children : ∀ n p, t.node? n = some p → ∀ k, k ∈ p.children ↔ (n, k) ∈ h.links ∧ (t.node? k).isSome
  kept : ∀ m n, (m, n) ∈ h.links → (t.node? n).isSome → (t.node? m).isSome
  inner : ∀ n p, t.node? n = some p → p.children ≠ [] → p.state = none
  leaf : ∀ n s, (n, s) ∈ h.live → ∃ p, t.node? n = some p ∧ p.children = [] ∧ p.state = some s
  dead : ∀ n p, t.node? n = some p → p.children = [] → n ∈ pending ∨ ∃ s, (n, s) ∈ h.live
  pending : ∀ n ∈ pending, ∀ s, (n, s) ∉ h.live
  sorted : h.live.Pairwise fun a b ↦ a.1 < b.1
  absorbed : ∀ n ∈ h.absorbed, n < t.nodes.size ∧ ∀ s, (n, s) ∉ h.live

namespace Linked

theorem present (hl : Linked h pending t) (hn : (n, s) ∈ h.live) : (t.node? n).isSome := by
  obtain ⟨p, hp, -⟩ := hl.leaf n s hn
  rw [hp]
  rfl

theorem start (s : StateId) : Linked { live := [(root, s)] } [] (ofState s) := by
  have hnode : ∀ n p, (ofState s).node? n = some p → n = root ∧ p = { state := some s } := by
    intro n p hp
    cases n with
    | zero => exact ⟨rfl, by simpa [node?, ofState] using hp.symm⟩
    | succ n => simp [node?, ofState] at hp
  constructor
  · simp
  · intro n p hp m
    obtain ⟨rfl, rfl⟩ := hnode n p hp
    simp
  · intro n p hp k
    obtain ⟨rfl, rfl⟩ := hnode n p hp
    simp
  · simp
  · intro n p hp hne
    obtain ⟨rfl, rfl⟩ := hnode n p hp
    exact absurd rfl hne
  · intro n s' hn
    obtain ⟨rfl, rfl⟩ : n = root ∧ s' = s := by simpa using hn
    exact ⟨{ state := some s' }, rfl, rfl, rfl⟩
  · intro n p hp _
    obtain ⟨rfl, rfl⟩ := hnode n p hp
    exact .inr ⟨s, by simp⟩
  · simp
  · simp
  · simp

theorem add {ps : List NodeId} (hl : Linked h [] t) (hps : ps.Nodup) (hpresent : ∀ m ∈ ps, (t.node? m).isSome)
    (s : StateId) : Linked (h.add ps t.nodes.size s) [] (t.add ps s).2 := by
  have hnode := node?_add hps t s
  have hold : ∀ m, (t.node? m).isSome → m ≠ t.nodes.size := fun m hm ↦ Nat.ne_of_lt (lt_size_of_isSome hm)
  have hsome : ∀ m, ((t.add ps s).2.node? m).isSome ↔ m = t.nodes.size ∨ (t.node? m).isSome := by
    intro m
    rw [hnode]
    split
    · simp [*]
    · split <;> simp [*]
  have hlive : ∀ m s', (m, s') ∈ (h.add ps t.nodes.size s).live ↔
      ((m, s') ∈ h.live ∧ m ∉ ps) ∨ (m = t.nodes.size ∧ s' = s) := by
    intro m s'
    simp [History.add]
  have hlinks : ∀ m k, (m, k) ∈ (h.add ps t.nodes.size s).links ↔
      (m, k) ∈ h.links ∨ (m ∈ ps ∧ k = t.nodes.size) := by
    intro m k
    simp [History.add, eq_comm]
  constructor
  · intro m n hmn
    rw [nodes_size_add]
    rcases (hlinks m n).1 hmn with hmn | ⟨hm, rfl⟩
    · exact (hl.ordered m n hmn).imp_right (Nat.lt_succ_of_lt ·)
    · exact ⟨lt_size_of_isSome (hpresent m hm), Nat.lt_succ_self _⟩
  · intro n p hp m
    rw [hnode] at hp
    rw [hlinks]
    split at hp
    · rename_i hn
      obtain rfl := Option.some.inj hp
      have hm : (m, n) ∉ h.links := fun hm ↦ Nat.ne_of_lt (hl.ordered m n hm).2 hn
      simp [hn ▸ hm, hn]
    · rename_i hn
      split at hp
      · obtain ⟨q, hq, rfl⟩ := Option.map_eq_some_iff.1 hp
        simp [hl.parents n q hq m, hn]
      · simp [hl.parents n p hp m, hn]
  · intro n p hp k
    rw [hnode] at hp
    rw [hlinks, hsome]
    split at hp
    · rename_i hn
      obtain rfl := Option.some.inj hp
      have hk : (n, k) ∉ h.links := fun hk ↦
        Nat.ne_of_lt (Nat.lt_trans (hl.ordered n k hk).1 (hl.ordered n k hk).2) hn
      have hps : n ∉ ps := fun hnp ↦ hold n (hpresent n hnp) hn
      simp [hk, hps]
    · have hk : (n, k) ∈ h.links → k ≠ t.nodes.size := fun hk ↦ Nat.ne_of_lt (hl.ordered n k hk).2
      split at hp
      · rename_i hnp
        obtain ⟨q, hq, rfl⟩ := Option.map_eq_some_iff.1 hp
        simp only [List.mem_append, List.mem_singleton, hl.children n q hq k, hnp, true_and]
        constructor
        · rintro (⟨hlink, hsome⟩ | rfl)
          · exact ⟨.inl hlink, .inr hsome⟩
          · exact ⟨.inr rfl, .inl rfl⟩
        · rintro ⟨hlink | rfl, hsome⟩
          · exact .inl ⟨hlink, hsome.resolve_left (hk hlink)⟩
          · exact .inr rfl
      · rename_i hnp
        rw [hl.children n p hp k]
        constructor
        · rintro ⟨hlink, hsome⟩
          exact ⟨.inl hlink, .inr hsome⟩
        · rintro ⟨hlink | hlink, hsome⟩
          · exact ⟨hlink, hsome.resolve_left (hk hlink)⟩
          · exact absurd hlink.1 hnp
  · intro m n hmn hn
    rw [hsome]
    rcases (hlinks m n).1 hmn with hmn | ⟨hm, -⟩
    · have hlt := (hl.ordered m n hmn).2
      exact .inr (hl.kept m n hmn (((hsome n).1 hn).resolve_left (Nat.ne_of_lt hlt)))
    · exact .inr (hpresent m hm)
  · intro n p hp hne
    rw [hnode] at hp
    split at hp
    · obtain rfl := Option.some.inj hp
      exact absurd rfl hne
    · split at hp
      · obtain ⟨q, -, rfl⟩ := Option.map_eq_some_iff.1 hp
        rfl
      · exact hl.inner n p hp hne
  · intro n s' hn
    rw [hnode]
    rcases (hlive n s').1 hn with ⟨hn, hnp⟩ | ⟨rfl, rfl⟩
    · rw [if_neg (hold n (hl.present hn)), if_neg hnp]
      exact hl.leaf n s' hn
    · rw [if_pos rfl]
      exact ⟨_, rfl, rfl, rfl⟩
  · intro n p hp hempty
    refine .inr ?_
    rw [hnode] at hp
    split at hp
    · rename_i hn
      exact ⟨s, (hlive n s).2 (.inr ⟨hn, rfl⟩)⟩
    · split at hp
      · obtain ⟨q, -, rfl⟩ := Option.map_eq_some_iff.1 hp
        simp at hempty
      · rename_i hnp
        obtain hpending | ⟨s', hs'⟩ := hl.dead n p hp hempty
        · simp at hpending
        · exact ⟨s', (hlive n s').2 (.inl ⟨hs', hnp⟩)⟩
  · simp
  · refine List.pairwise_append.2 ⟨hl.sorted.filter _, List.pairwise_singleton .., fun a ha b hb ↦ ?_⟩
    obtain rfl : b = (t.nodes.size, s) := by simpa using hb
    exact lt_size_of_isSome (hl.present (List.mem_of_mem_filter ha))
  · intro n hn
    obtain ⟨hlt, hdead⟩ := hl.absorbed n hn
    rw [nodes_size_add]
    refine ⟨Nat.lt_succ_of_lt hlt, fun s' hs' ↦ ?_⟩
    rcases (hlive n s').1 hs' with ⟨hs', -⟩ | ⟨hn, -⟩
    · exact hdead s' hs'
    · exact Nat.ne_of_lt hlt hn

theorem split (hl : Linked h [] t) (hn : (n, s) ∈ h.live) (left right : StateId) :
    Linked (h.split n t.nodes.size (t.add [n] left).2.nodes.size left right) []
      ((t.add [n] left).2.add [n] right).2 := by
  have hpresent := hl.present hn
  refine (hl.add (List.nodup_singleton n) (by simpa using hpresent) left).add (List.nodup_singleton n) ?_ right
  intro m hm
  rw [List.mem_singleton.1 hm, node?_add (List.nodup_singleton n),
    if_neg (Nat.ne_of_lt (lt_size_of_isSome hpresent)), if_pos List.mem_cons_self, Option.isSome_map]
  exact hpresent

theorem merge {s' : StateId} (hl : Linked h [] t) (hn : (n, s) ∈ h.live) (hm : (m, s') ∈ h.live) (hne : n ≠ m)
    (state : StateId) : Linked (h.merge n m t.nodes.size state) [] (t.add [n, m] state).2 := by
  have hlt : ∀ k ∈ [n, m], k < t.nodes.size := by
    simpa using ⟨lt_size_of_isSome (hl.present hn), lt_size_of_isSome (hl.present hm)⟩
  have hadd := hl.add (show [n, m].Nodup by simpa using hne) (by simpa using ⟨hl.present hn, hl.present hm⟩) state
  refine { hadd with absorbed := fun k hk ↦ ?_ }
  by_cases hkin : k ∈ [n, m]
  · refine ⟨?_, fun s hs ↦ ?_⟩
    · rw [nodes_size_add]
      exact Nat.lt_succ_of_lt (hlt k hkin)
    · rcases List.mem_append.1 hs with hs | hs
      · exact of_decide_eq_true (List.mem_filter.1 hs).2 hkin
      · exact Nat.ne_of_lt (hlt k hkin) (Prod.mk.inj (List.mem_singleton.1 hs)).1
  · have hk : k ∈ h.absorbed := by
      simp only [History.merge, List.mem_cons] at hk
      simp only [List.mem_cons, List.not_mem_nil, or_false] at hkin
      tauto
    exact hadd.absorbed k hk

theorem skip (hl : Linked h (n :: pending) t) (hn : ∀ p, t.node? n = some p → p.children ≠ []) :
    Linked h pending t := by
  refine { hl with dead := fun m p hp hempty ↦ ?_, pending := fun m hm ↦ hl.pending m (List.mem_cons_of_mem _ hm) }
  rcases hl.dead m p hp hempty with hm | hlive
  · rcases List.mem_cons.1 hm with rfl | hm
    · exact absurd hempty (hn p hp)
    · exact .inl hm
  · exact .inr hlive

theorem remove {pending' : List NodeId} (hl : Linked h (n :: pending) t) (hn : t.node? n = some p)
    (hempty : p.children = [])
    (hnode : ∀ m, t'.node? m =
      if m ∈ p.parents then ((t.remove n).node? m).map (·.without n) else (t.remove n).node? m)
    (hpending : ∀ m, m ∈ pending' ↔ m ∈ pending ∨ (m ∈ p.parents ∧ t'.isLeaf m = true))
    (hsize : t'.nodes.size = t.nodes.size) : Linked h pending' t' := by
  have hpresent : (t.node? n).isSome := by simp [hn]
  -- only parents had the node as a child, so that it is taken from all others as well
  have hcases : ∀ m q, t'.node? m = some q → m ≠ n ∧ ∃ q₀, t.node? m = some q₀ ∧ q = q₀.without n := by
    intro m q hq
    rw [hnode, node?_remove] at hq
    by_cases hm : n = m
    · simp [hm] at hq
    · rw [if_neg hm] at hq
      refine ⟨Ne.symm hm, ?_⟩
      split at hq
      · obtain ⟨q₀, hq₀, rfl⟩ := Option.map_eq_some_iff.1 hq
        exact ⟨q₀, hq₀, rfl⟩
      · rename_i hparent
        have hchild : n ∉ q.children := fun hchild ↦
          hparent ((hl.parents n p hn m).2 ((hl.children m q hq n).1 hchild).1)
        refine ⟨q, hq, ?_⟩
        rw [ProcessNode.without, List.filter_eq_self.2 fun k hk ↦ by
          simpa using fun hkn : k = n ↦ hchild (hkn ▸ hk)]
  have hsome : ∀ m, (t'.node? m).isSome ↔ m ≠ n ∧ (t.node? m).isSome := by
    intro m
    rw [hnode, node?_remove]
    by_cases hm : n = m
    · simp [hm]
    · split <;> simp [Ne.symm hm]
  constructor
  · intro m k hmk
    rw [hsize]
    exact hl.ordered m k hmk
  · intro m q hq k
    obtain ⟨-, q₀, hq₀, rfl⟩ := hcases m q hq
    exact hl.parents m q₀ hq₀ k
  · intro m q hq k
    obtain ⟨-, q₀, hq₀, rfl⟩ := hcases m q hq
    rw [hsome, ProcessNode.without, List.mem_filter, hl.children m q₀ hq₀ k]
    simp only [ne_eq, decide_eq_true_eq]
    tauto
  · intro m k hmk hk
    obtain ⟨-, hk⟩ := (hsome k).1 hk
    refine (hsome m).2 ⟨?_, hl.kept m k hmk hk⟩
    rintro rfl
    have hchild := (hl.children m p hn k).2 ⟨hmk, hk⟩
    rw [hempty] at hchild
    cases hchild
  · intro m q hq hne
    obtain ⟨-, q₀, hq₀, rfl⟩ := hcases m q hq
    refine hl.inner m q₀ hq₀ fun hnone ↦ hne ?_
    rw [ProcessNode.without, hnone, List.filter_nil]
  · intro m s hm
    obtain ⟨q, hq, hchildren, hstate⟩ := hl.leaf m s hm
    have hmn : n ≠ m := by
      rintro rfl
      exact hl.pending n List.mem_cons_self s hm
    rw [hnode, node?_remove, if_neg hmn, hq]
    split
    · exact ⟨q.without n, rfl, by rw [ProcessNode.without, hchildren, List.filter_nil], hstate⟩
    · exact ⟨q, rfl, hchildren, hstate⟩
  · intro m q hq hnone
    obtain ⟨hmn, q₀, hq₀, rfl⟩ := hcases m q hq
    by_cases hchildren : q₀.children = []
    · rcases hl.dead m q₀ hq₀ hchildren with hm | hm
      · exact .inl ((hpending m).2 (.inl ((List.mem_cons.1 hm).resolve_left hmn)))
      · exact .inr hm
    · obtain ⟨k, hk⟩ := List.exists_mem_of_ne_nil _ hchildren
      have hkn : k = n := by
        by_contra hkn
        have hleft : k ∈ (q₀.without n).children := List.mem_filter.2 ⟨hk, by simpa using hkn⟩
        rw [hnone] at hleft
        cases hleft
      have hlink := ((hl.children m q₀ hq₀ n).1 (hkn ▸ hk)).1
      exact .inl ((hpending m).2 (.inr ⟨(hl.parents n p hn m).2 hlink, isLeaf_iff_node?.2 ⟨_, hq, hnone⟩⟩))
  · intro m hm s hs
    rcases (hpending m).1 hm with hm | ⟨hm, -⟩
    · exact hl.pending m (List.mem_cons_of_mem _ hm) s hs
    · obtain ⟨q, hq, hchildren, -⟩ := hl.leaf m s hs
      have hchild := (hl.children m q hq n).2 ⟨(hl.parents n p hn m).1 hm, hpresent⟩
      rw [hchildren] at hchild
      cases hchild
  · exact hl.sorted
  · intro m hm
    rw [hsize]
    exact hl.absorbed m hm

theorem prune {fuel : Nat} (hl : Linked h pending t) (hfuel : pending.length + t.links ≤ fuel) :
    Linked h [] (ProcessTree.prune fuel pending t) := by
  induction fuel generalizing pending t with
  | zero =>
    obtain rfl : pending = [] := List.eq_nil_of_length_eq_zero (by omega)
    exact hl
  | succ fuel ih =>
    cases pending with
    | nil => exact hl
    | cons n pending =>
      rw [List.length_cons] at hfuel
      rw [ProcessTree.prune]
      cases hn : t.node? n with
      | none => exact ih (hl.skip (by simp [hn])) (by omega)
      | some p =>
        dsimp only
        split
        · rename_i hempty
          generalize hr : List.foldl _ _ _ = r
          obtain ⟨hnode, hpending, hlength, hlinks, hsize⟩ := foldl_disown n p.parents pending (t.remove n) hr
          have htotal := links_remove hn
          rw [ProcessTree.remove, Array.size_setIfInBounds] at hsize
          exact ih (hl.remove hn (List.isEmpty_iff.1 hempty) hnode hpending hsize) (by omega)
        · rename_i hempty
          refine ih (hl.skip fun q hq hnone ↦ hempty ?_) (by omega)
          rw [hn] at hq
          rw [Option.some.inj hq, hnone, List.isEmpty_nil]

theorem terminate (hl : Linked h [] t) (n : NodeId) : Linked (h.terminate n) [] (t.terminate n) := by
  have hlive : ∀ m s, (m, s) ∈ (h.terminate n).live ↔ (m, s) ∈ h.live ∧ m ≠ n := by
    intro m s
    simp [History.terminate]
  have hpending : Linked (h.terminate n) [n] t := by
    refine { hl with leaf := ?_, dead := ?_, pending := ?_, sorted := hl.sorted.filter _, absorbed := ?_ }
    · intro m s hm
      exact hl.leaf m s ((hlive m s).1 hm).1
    · intro m p hp hempty
      by_cases hm : m = n
      · exact .inl (List.mem_singleton.2 hm)
      · rcases hl.dead m p hp hempty with hpending | ⟨s, hs⟩
        · cases hpending
        · exact .inr ⟨s, (hlive m s).2 ⟨hs, hm⟩⟩
    · intro m hm s hs
      exact ((hlive m s).1 hs).2 (List.mem_singleton.1 hm)
    · intro m hm
      exact ⟨(hl.absorbed m hm).1, fun s hs ↦ (hl.absorbed m hm).2 s ((hlive m s).1 hs).1⟩
  exact hpending.prune (Nat.le_of_eq (Nat.add_comm 1 t.links))

theorem terminate_absorbed (hl : Linked h [] t) (hn : n ∈ h.absorbed) : Linked h [] (t.terminate n) := by
  have hsame : h.terminate n = h := by
    rw [History.terminate, List.filter_eq_self.2 fun x hx ↦ ?_]
    refine decide_eq_true fun hxn ↦ (hl.absorbed n hn).2 x.2 ?_
    rw [← hxn]
    exact hx
  exact hsame ▸ hl.terminate n

end Linked

theorem split_eq_ok (h : t.split n left right = .ok ((l, r), t')) : l = t.nodes.size ∧
    r = (t.add [n] left).2.nodes.size ∧ t' = ((t.add [n] left).2.add [n] right).2 := by
  unfold split at h
  obtain ⟨-, -, h⟩ := Checked.bind_eq_ok.1 h
  simp only [Checked.pure_eq_ok, Prod.mk.injEq] at h
  exact ⟨h.1.1.symm, h.1.2.symm, h.2.symm⟩

theorem merge_eq_ok (h : t.merge n m s = .ok (k, t')) :
    k = t.nodes.size ∧ t' = (t.add [n, m] s).2 := by
  unfold merge at h
  obtain ⟨-, -, h⟩ := Checked.bind_eq_ok.1 h
  obtain ⟨hk, ht⟩ := Prod.mk.inj (Checked.pure_eq_ok.1 h)
  exact ⟨hk.symm, ht.symm⟩

theorem Grown.linked (hg : Grown h t) : Linked h [] t := by
  induction hg with
  | start s => exact .start s
  | split _ hn hsplit hl =>
    obtain ⟨rfl, rfl, rfl⟩ := split_eq_ok hsplit
    exact hl.split hn _ _
  | merge _ hn hm hne hmerge hl =>
    obtain ⟨rfl, rfl⟩ := merge_eq_ok hmerge
    exact hl.merge hn hm hne _
  | terminate _ _ hl => exact hl.terminate _
  | release _ hn hl => exact hl.terminate_absorbed hn

/-! ## What the tree says of the live states -/

/-- The second node has the first one among its parents. -/
def Parent (t : ProcessTree) (m n : NodeId) : Prop := ∃ p, t.node? n = some p ∧ m ∈ p.parents

/-- The first node has the second one among its children. -/
def Child (t : ProcessTree) (m n : NodeId) : Prop := ∃ p, t.node? m = some p ∧ n ∈ p.children

/-- Of all nodes that there ever were, those are left that are above live leaves. -/
structure Mirrors (t : ProcessTree) (h : History) : Prop where
  child_iff : ∀ m n, t.Child m n ↔ t.Parent m n
  parent_iff : ∀ m n, t.Parent m n ↔ h.Above m n ∧ (t.node? n).isSome
  acyclic : ∀ n, ¬Relation.TransGen t.Parent n n
  state_iff : ∀ n p, t.node? n = some p → (p.state.isSome ↔ p.children = [])
  leaves_eq : t.leaves = h.live
  leads : ∀ n, (t.node? n).isSome → ∃ m s, (m, s) ∈ h.live ∧ Relation.ReflTransGen t.Parent n m
  kept : ∀ m s, (m, s) ∈ h.live → ∀ n, Relation.ReflTransGen h.Above n m → (t.node? n).isSome
  isEmpty_iff : t.isEmpty = true ↔ h.live = []

theorem mem_leaves : (n, s) ∈ t.leaves ↔ ∃ p, t.node? n = some p ∧ p.state = some s := by
  simp only [leaves, List.mem_filterMap, Prod.exists, List.mem_zipIdx_iff_getElem?, Array.getElem?_toList,
    Option.map_eq_some_iff, Option.bind_eq_some_iff, Prod.mk.injEq, node?, Option.join_eq_some_iff]
  constructor
  · rintro ⟨o, i, ho, s', ⟨p, rfl, hp⟩, rfl, rfl⟩
    exact ⟨p, ho, hp⟩
  · rintro ⟨p, hp, hs⟩
    exact ⟨some p, n, hp, s, ⟨p, rfl, hs⟩, rfl, rfl⟩

theorem pairwise_leaves (t : ProcessTree) : t.leaves.Pairwise fun a b ↦ a.1 < b.1 := by
  have hindices : t.nodes.toList.zipIdx.Pairwise fun a b ↦ a.2 < b.2 := by
    rw [← List.pairwise_map, List.zipIdx_map_snd]
    exact List.pairwise_lt_range'
  refine hindices.filterMap _ fun a b hab x hx y hy ↦ ?_
  obtain ⟨_, -, rfl⟩ := Option.map_eq_some_iff.1 hx
  obtain ⟨_, -, rfl⟩ := Option.map_eq_some_iff.1 hy
  exact hab

namespace Linked

variable (hl : Linked h [] t)
include hl

theorem live_of_childless (hp : t.node? n = some p) (hempty : p.children = []) : ∃ s, (n, s) ∈ h.live :=
  (hl.dead n p hp hempty).resolve_left List.not_mem_nil

theorem parent_iff : t.Parent m n ↔ h.Above m n ∧ (t.node? n).isSome := by
  constructor
  · rintro ⟨p, hp, hm⟩
    exact ⟨(hl.parents n p hp m).1 hm, by simp [hp]⟩
  · rintro ⟨hlink, hn⟩
    obtain ⟨p, hp⟩ := Option.isSome_iff_exists.1 hn
    exact ⟨p, hp, (hl.parents n p hp m).2 hlink⟩

theorem child_iff : t.Child m n ↔ t.Parent m n := by
  rw [hl.parent_iff]
  constructor
  · rintro ⟨p, hp, hn⟩
    exact (hl.children m p hp n).1 hn
  · rintro ⟨hlink, hn⟩
    obtain ⟨p, hp⟩ := Option.isSome_iff_exists.1 (hl.kept m n hlink hn)
    exact ⟨p, hp, (hl.children m p hp n).2 ⟨hlink, hn⟩⟩

theorem lt_of_transGen (hmn : Relation.TransGen t.Parent m n) : m < n := by
  induction hmn with
  | single hmn => exact (hl.ordered _ _ (hl.parent_iff.1 hmn).1).1
  | tail _ hnk ih => exact Nat.lt_trans ih (hl.ordered _ _ (hl.parent_iff.1 hnk).1).1

theorem state_iff (hp : t.node? n = some p) : p.state.isSome ↔ p.children = [] := by
  constructor
  · intro hstate
    by_contra hne
    rw [hl.inner n p hp hne] at hstate
    cases hstate
  · intro hempty
    obtain ⟨s, hs⟩ := hl.live_of_childless hp hempty
    obtain ⟨q, hq, -, hstate⟩ := hl.leaf n s hs
    rw [← Option.some.inj (hp.symm.trans hq)] at hstate
    simp [hstate]

theorem leaves_eq : t.leaves = h.live := by
  have hmem : ∀ x, x ∈ t.leaves ↔ x ∈ h.live := by
    rintro ⟨n, s⟩
    rw [mem_leaves]
    constructor
    · rintro ⟨p, hp, hstate⟩
      obtain ⟨s', hs'⟩ := hl.live_of_childless hp ((hl.state_iff hp).1 (by simp [hstate]))
      obtain ⟨q, hq, -, hstate'⟩ := hl.leaf n s' hs'
      rw [← Option.some.inj (hp.symm.trans hq), hstate] at hstate'
      exact Option.some.inj hstate' ▸ hs'
    · intro hs
      obtain ⟨p, hp, -, hstate⟩ := hl.leaf n s hs
      exact ⟨p, hp, hstate⟩
  have hnodup : ∀ {l : List (NodeId × StateId)}, l.Pairwise (fun a b ↦ a.1 < b.1) → l.Nodup := by
    intro l hsorted
    refine List.Pairwise.imp (fun {a b} hab (heq : a = b) ↦ ?_) hsorted
    exact Nat.lt_irrefl b.1 (heq ▸ hab)
  have hperm : t.leaves.Perm h.live :=
    (List.perm_ext_iff_of_nodup (hnodup t.pairwise_leaves) (hnodup hl.sorted)).2 hmem
  exact hperm.eq_of_pairwise (fun a b _ _ hab hba ↦ absurd (Nat.lt_trans hab hba) (Nat.lt_irrefl _))
    t.pairwise_leaves hl.sorted

theorem leads (n : NodeId) (hn : (t.node? n).isSome) :
    ∃ m s, (m, s) ∈ h.live ∧ Relation.ReflTransGen t.Parent n m := by
  induction hk : t.nodes.size - n using Nat.strong_induction_on generalizing n with
  | _ k ih =>
    obtain ⟨p, hp⟩ := Option.isSome_iff_exists.1 hn
    by_cases hempty : p.children = []
    · obtain ⟨s, hs⟩ := hl.live_of_childless hp hempty
      exact ⟨n, s, hs, .refl⟩
    · obtain ⟨c, hc⟩ := List.exists_mem_of_ne_nil _ hempty
      obtain ⟨hlink, hcsome⟩ := (hl.children n p hp c).1 hc
      obtain ⟨hlt, hsize⟩ := hl.ordered n c hlink
      obtain ⟨m, s, hs, hpath⟩ := ih (t.nodes.size - c)
        (hk ▸ Nat.sub_lt_sub_left (Nat.lt_trans hlt hsize) hlt) c hcsome rfl
      exact ⟨m, s, hs, .head (hl.parent_iff.2 ⟨hlink, hcsome⟩) hpath⟩

theorem kept_above (hm : (t.node? m).isSome) (hnm : Relation.ReflTransGen h.Above n m) : (t.node? n).isSome := by
  induction hnm using Relation.ReflTransGen.head_induction_on with
  | refl => exact hm
  | head hlink _ ih => exact hl.kept _ _ hlink ih

theorem isEmpty_iff : t.isEmpty = true ↔ h.live = [] := by
  have hempty : t.isEmpty = true ↔ ∀ n, (t.node? n).isSome → False := by
    simp only [isEmpty, size, beq_iff_eq, Array.countP_eq_zero, node?]
    constructor
    · intro hall n hn
      cases ho : t.nodes[n]? with
      | none => simp [ho] at hn
      | some o =>
        rw [ho] at hn
        exact hall o (Array.mem_of_getElem? ho) hn
    · intro hall o ho hsome
      obtain ⟨n, hn⟩ := Array.getElem?_of_mem ho
      exact hall n (by rw [hn]; exact hsome)
  rw [hempty]
  constructor
  · intro hall
    refine List.eq_nil_iff_forall_not_mem.2 fun x hx ↦ hall x.1 ?_
    exact hl.present (s := x.2) hx
  · intro hnil n hn
    obtain ⟨m, s, hs, -⟩ := hl.leads n hn
    rw [hnil] at hs
    cases hs

theorem mirrors : t.Mirrors h where
  child_iff _ _ := hl.child_iff
  parent_iff _ _ := hl.parent_iff
  acyclic _ hcycle := Nat.lt_irrefl _ (hl.lt_of_transGen hcycle)
  state_iff _ _ := hl.state_iff
  leaves_eq := hl.leaves_eq
  leads := hl.leads
  kept _ _ hm _ := hl.kept_above (hl.present hm)
  isEmpty_iff := hl.isEmpty_iff

end Linked

/-! ## Leaves that can be divided and joined -/

theorem Grown.isLeaf (hg : Grown h t) (hn : (n, s) ∈ h.live) : t.isLeaf n = true := by
  obtain ⟨p, hp, hempty, -⟩ := hg.linked.leaf n s hn
  exact isLeaf_iff_node?.2 ⟨p, hp, hempty⟩

theorem Grown.exists_split (hg : Grown h t) (hn : (n, s) ∈ h.live) (left right : StateId) :
    ∃ l r t', t.split n left right = .ok ((l, r), t') ∧ Grown (h.split n l r left right) t' ∧
      (l, left) ∈ t'.leaves ∧ (r, right) ∈ t'.leaves ∧ ∀ m s, m ≠ n → (m, s) ∈ t.leaves → (m, s) ∈ t'.leaves := by
  obtain ⟨l, r, t', hsplit, -⟩ := ProcessTree.exists_split (hg.isLeaf hn) left right
  have hgrown := hg.split hn hsplit
  have hln : l ≠ n := by
    rw [(split_eq_ok hsplit).1]
    exact Nat.ne_of_gt (lt_size_of_isSome (hg.linked.present hn))
  refine ⟨l, r, t', hsplit, hgrown, ?_⟩
  rw [hgrown.linked.leaves_eq, hg.linked.leaves_eq]
  simp only [History.split, History.add, List.mem_append, List.mem_filter, List.mem_singleton, decide_eq_true_eq]
  exact ⟨.inl ⟨.inr trivial, hln⟩, .inr trivial, fun m s hm hs ↦ .inl ⟨.inl ⟨hs, hm⟩, hm⟩⟩

theorem Grown.exists_merge {s' : StateId} (hg : Grown h t) (hn : (n, s) ∈ h.live) (hm : (m, s') ∈ h.live)
    (hne : n ≠ m) (state : StateId) :
    ∃ k t', t.merge n m state = .ok (k, t') ∧ Grown (h.merge n m k state) t' ∧ (k, state) ∈ t'.leaves ∧
      ∀ i s, i ≠ n → i ≠ m → (i, s) ∈ t.leaves → (i, s) ∈ t'.leaves := by
  have hmerge : t.merge n m state = .ok (t.add [n, m] state) := by
    unfold ProcessTree.merge
    rw [demand_of ⟨hg.isLeaf hn, hg.isLeaf hm⟩]
    rfl
  have hgrown := hg.merge hn hm hne hmerge
  refine ⟨_, _, hmerge, hgrown, ?_⟩
  rw [hgrown.linked.leaves_eq, hg.linked.leaves_eq]
  simp only [History.merge, History.add, List.mem_append, List.mem_filter, decide_eq_true_eq, List.mem_cons,
    List.not_mem_nil, or_false]
  exact ⟨.inr trivial, fun i s hin him hs ↦ .inl ⟨hs, not_or.2 ⟨hin, him⟩⟩⟩

end ProcessTree

end Symex
