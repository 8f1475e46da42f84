import Mathlib.Algebra.Ring.Nat
import Symex.Proofs.BalancedTrees
import Symex.Proofs.ByteArrays
import Symex.Proofs.Endings
import Symex.Proofs.Spaces

namespace Symex

/-! ## Changes keep the owner -/

namespace ObjectState

open Checked

variable {x y : ObjectState}

/-- The contents belong to the epoch `n`. -/
abbrev Owned (n : Nat) (x : ObjectState) : Prop := x.owner = n

theorem ends_bind_anyway {α β : Type} {c : Checked α} {f : α → Checked β} {Q : β → Prop}
    (h : ∀ a, Ends (fun _ ↦ True) (f a) Q) : Ends (fun _ ↦ True) (c >>= f) Q :=
  ends_bind (ends_true_iff.2 fun _ _ ↦ trivial) fun a (_ : True) ↦ h a

theorem ends_writeByte_owner (x : ObjectState) (i : Nat) (b : UInt8) :
    Ends (fun _ ↦ True) (x.writeByte i b) (Owned x.owner) := by
  rw [writeByte]
  split
  · exact ends_of_eq rfl rfl
  · exact ends_throw trivial

theorem ends_write8_owner (x : ObjectState) (i : Nat) (v : Expr) :
    Ends (fun _ ↦ True) (x.write8 i v) (Owned x.owner) := by
  rw [write8]
  split
  · exact ends_writeByte_owner ..
  · exact ends_bind_anyway fun _ ↦ ends_pure rfl

theorem ends_writeByteAt_owner (x : ObjectState) (offset v : Expr) :
    Ends (fun _ ↦ True) (x.writeByteAt offset v) (Owned x.owner) :=
  ends_bind_anyway fun _ ↦ ends_bind_anyway fun _ ↦ ends_bind_anyway fun _ ↦ ends_pure rfl

theorem ends_foldlM_owner {α : Type} {f : ObjectState → α → Checked ObjectState} {l : List α}
    (hf : ∀ x a, Ends (fun _ ↦ True) (f x a) (Owned x.owner)) (x : ObjectState) :
    Ends (fun _ ↦ True) (l.foldlM f x) (Owned x.owner) :=
  ends_foldlM rfl fun a _ y hy ↦ hy ▸ hf y a

theorem ends_write_owner (x : ObjectState) (offset v : Expr) :
    Ends (fun _ ↦ True) (x.write offset v) (Owned x.owner) := by
  rw [write_eq]
  refine ends_bind_anyway fun value ↦ ends_foldlM_owner (fun y i ↦ ends_bind_anyway fun byte ↦ ?_) x
  unfold writeAfter
  split
  · exact ends_bind_anyway fun _ ↦ ends_write8_owner ..
  · exact ends_bind_anyway fun _ ↦ ends_writeByteAt_owner ..

theorem Change.ends_run_owner (c : Change) (x : ObjectState) :
    Ends (fun _ ↦ True) (c.run x) (Owned x.owner) := by
  cases c with
  | write8 i v => exact ends_write8_owner x i v
  | writeByteAt offset v => exact ends_writeByteAt_owner x offset v
  | write offset v => exact ends_write_owner x offset v
  | writeBytes offset bytes =>
    exact ends_foldlM_owner (fun y q ↦ ends_bind_anyway fun _ ↦ ends_writeByte_owner ..) x
  | clear => exact ends_pure rfl

end ObjectState

namespace AddressSpace

variable {s m : AddressSpace} {o : MemoryObject} {x y : ObjectState} {f : ObjectState → Checked ObjectState}

theorem eq_of_bind (hm : s.bind x = .ok m) :
    m = { s with objects := (s.objects.insert x.object.key { x with owner := s.epoch }).2 } := by
  obtain ⟨_, -, hm⟩ := Checked.bind_eq_ok.1 hm
  exact (Checked.pure_eq_ok.1 hm).symm

theorem eq_of_unbind (hm : s.unbind o = .ok m) : m = { s with objects := (s.objects.erase o.key).2 } := by
  obtain ⟨_, -, hm⟩ := Checked.bind_eq_ok.1 hm
  exact (Checked.pure_eq_ok.1 hm).symm

theorem eq_of_modify (hx : s.find? o = some x)
    (hy : f { x with owner := s.epoch } = .ok y) (hm : s.modify o f = .ok m) :
    m = { s with objects := s.objects.modify o.key fun _ ↦ y } := by
  rw [find?] at hx
  rw [modify, hx] at hm
  dsimp only at hm
  rw [hy] at hm
  exact (Except.ok.inj hm).symm

theorem footprint_eq (s : AddressSpace) : s.footprint = (s.owned.map (·.footprint)).sum := rfl

end AddressSpace

/-! ## Families -/

/-- An address space, and where the contents of its objects lie. -/
structure Member where
  space : AddressSpace := {}
  place : ObjectKey → Nat := fun _ ↦ 0

/-- Address spaces that come from one, and the store of all contents that were ever made for them. -/
structure Family where
  members : List Member := [{}]
  contents : List ObjectState := []

namespace Member

/-- A member with the same contents in the same places, which it does not own. -/
def fork (p : Member) : Member := { p with space := p.space.fork }

/-- The object has its contents in a place of its own from now on. -/
def moved (p : Member) (space : AddressSpace) (key : ObjectKey) (n : Nat) : Member where
  space
  place := Function.update p.place key n

def owned (p : Member) : List Nat :=
  (p.space.entries.filter fun q ↦ q.2.owner = p.space.epoch).map fun q ↦ p.place q.1

end Member

namespace Family

/-- One of the members forks, binds an object, unbinds one, or writes to one. Contents of the current epoch
are changed where they lie, and others are copied to a new place first. -/
inductive Grows (F : Family) : Family → Prop
  | fork {i : Nat} {p : Member} (hp : F.members[i]? = some p) :
      Grows F { F with members := F.members.set i p.fork ++ [p.fork] }
  | bind {i : Nat} {p : Member} {x : ObjectState} {m : AddressSpace} (hp : F.members[i]? = some p)
      (hm : p.space.bind x = .ok m) :
      Grows F
        { members := F.members.set i (p.moved m x.object.key F.contents.length)
          contents := F.contents ++ [{ x with owner := p.space.epoch }] }
  | unbind {i : Nat} {p : Member} {o : MemoryObject} {m : AddressSpace} (hp : F.members[i]? = some p)
      (hm : p.space.unbind o = .ok m) :
      Grows F { F with members := F.members.set i { p with space := m } }
  | change {i : Nat} {p : Member} {o : MemoryObject} {f : ObjectState → Checked ObjectState}
      {x y : ObjectState} {m : AddressSpace} (hp : F.members[i]? = some p) (hx : p.space.find? o = some x)
      (howner : x.owner = p.space.epoch) (hy : f x = .ok y) (hkept : y.owner = x.owner)
      (hm : p.space.modify o f = .ok m) :
      Grows F
        { members := F.members.set i { p with space := m }
          contents := F.contents.set (p.place o.key) y }
  | copy {i : Nat} {p : Member} {o : MemoryObject} {f : ObjectState → Checked ObjectState}
      {x y : ObjectState} {m : AddressSpace} (hp : F.members[i]? = some p) (hx : p.space.find? o = some x)
      (howner : x.owner ≠ p.space.epoch) (hy : f { x with owner := p.space.epoch } = .ok y)
      (hkept : y.owner = p.space.epoch) (hm : p.space.modify o f = .ok m) :
      Grows F
        { members := F.members.set i (p.moved m o.key F.contents.length)
          contents := F.contents ++ [y] }

/-- The family came from a single address space without objects. -/
def Grown (F : Family) : Prop := Relation.ReflTransGen Grows {} F

/-- The object with this key has the contents `x` for the `i`-th member. -/
structure Binds (F : Family) (i : Nat) (p : Member) (key : ObjectKey) (x : ObjectState) : Prop where
  member : F.members[i]? = some p
  bound : p.space.objects.get? key = some x

variable {F F' : Family} {i j n : Nat} {p q : Member} {k l : ObjectKey} {x y : ObjectState}
  {o : MemoryObject} {m : AddressSpace} {cs : List ObjectState} {f : ObjectState → Checked ObjectState}

theorem exists_grows_of_modify (hp : F.members[i]? = some p) (hm : p.space.modify o f = .ok m)
    (hf : ∀ x y, f x = .ok y → y.owner = x.owner) :
    ∃ q cs, q.space = m ∧ F.Grows { members := F.members.set i q, contents := cs } := by
  have hmodify := hm
  rw [AddressSpace.modify] at hmodify
  split at hmodify
  · cases hmodify
  · rename_i x hx
    obtain ⟨y, hy, -⟩ := Checked.bind_eq_ok.1 hmodify
    by_cases howner : x.owner = p.space.epoch
    · rw [← howner] at hy
      exact ⟨_, _, rfl, .change hp hx howner hy (hf _ _ hy) hm⟩
    · exact ⟨_, _, rfl, .copy hp hx howner hy (hf _ _ hy) hm⟩

theorem exists_grows_of_changes {l : List ObjectState.Change} (hp : F.members[i]? = some p)
    (hm : p.space.modify o (l.foldlM ObjectState.Change.run ·) = .ok m) :
    ∃ q cs, q.space = m ∧ F.Grows { members := F.members.set i q, contents := cs } :=
  exists_grows_of_modify hp hm fun x ↦ Checked.ends_true_iff.1
    (ObjectState.ends_foldlM_owner (fun x change ↦ change.ends_run_owner x) x)

/-! ## What sharing keeps -/

/-- Every member sees its objects as they lie in the store. A place that is used twice is used by two
members, and both are past the epoch of its contents. -/
structure Coherent (F : Family) : Prop where
  sorted : ∀ {i : Nat} {p : Member}, F.members[i]? = some p → p.space.objects.Sorted
  found : ∀ {i p k x}, F.Binds i p k x → F.contents[p.place k]? = some x
  owner_le : ∀ {i p k x}, F.Binds i p k x → x.owner ≤ p.space.epoch
  apart : ∀ {i p k x j q l y}, F.Binds i p k x → F.Binds j q l y → p.place k = q.place l →
    (i = j ∧ k = l) ∨ (i ≠ j ∧ x.owner < p.space.epoch)

theorem coherent_empty : ({} : Family).Coherent := by
  have hnone : ∀ {i p k x}, ¬({} : Family).Binds i p k x := by
    intro i p k x h
    cases i with
    | zero =>
      obtain rfl := Option.some.inj h.member
      cases h.bound
    | succ i => cases h.member
  refine ⟨fun {i p} hp ↦ ?_, fun h ↦ (hnone h).elim, fun h ↦ (hnone h).elim, fun h ↦ (hnone h).elim⟩
  cases i with
  | zero =>
    obtain rfl := Option.some.inj hp
    exact List.Pairwise.nil
  | succ i => cases hp

theorem Coherent.lt_length (h : F.Coherent) (hx : F.Binds i p k x) : p.place k < F.contents.length :=
  (List.getElem?_eq_some_iff.1 (h.found hx)).1

theorem Coherent.alone (h : F.Coherent) (hx : F.Binds i p k x) (howner : x.owner = p.space.epoch)
    (hy : F.Binds j q l y) (hplace : q.place l = p.place k) : j = i ∧ l = k := by
  obtain ⟨rfl, rfl⟩ | ⟨-, hlt⟩ := h.apart hx hy hplace.symm
  · exact ⟨rfl, rfl⟩
  · omega

/-! ### Forks -/

theorem fork_binds (hp : F.members[i]? = some p)
    (h : Binds { F with members := F.members.set i p.fork ++ [p.fork] } j q k x) :
    (j ≠ i ∧ j < F.members.length ∧ F.Binds j q k x) ∨
      ((j = i ∨ j = F.members.length) ∧ q = p.fork ∧ F.Binds i p k x) := by
  obtain ⟨hmember, hbound⟩ := h
  have hi : i < F.members.length := (List.getElem?_eq_some_iff.1 hp).1
  obtain hlt | heq | hgt := Nat.lt_trichotomy j F.members.length
  · rw [List.getElem?_append_left (by rwa [List.length_set])] at hmember
    by_cases hij : i = j
    · subst hij
      rw [List.getElem?_set_self hi] at hmember
      obtain rfl := Option.some.inj hmember
      exact .inr ⟨.inl rfl, rfl, hp, hbound⟩
    · rw [List.getElem?_set_ne hij] at hmember
      exact .inl ⟨Ne.symm hij, hlt, hmember, hbound⟩
  · rw [List.getElem?_append_right (by rw [List.length_set]; omega), List.length_set, heq, Nat.sub_self]
      at hmember
    obtain rfl := Option.some.inj hmember
    exact .inr ⟨.inr heq, rfl, hp, hbound⟩
  · rw [List.getElem?_eq_none (by simp; omega)] at hmember
    cases hmember

theorem Coherent.fork (h : F.Coherent) (hp : F.members[i]? = some p) :
    Coherent { F with members := F.members.set i p.fork ++ [p.fork] } where
  sorted {j q} hq := by
    have hmem := List.mem_of_getElem? hq
    rw [List.mem_append, List.mem_singleton] at hmem
    have hfork : p.fork.space.objects.Sorted := h.sorted (p := p) hp
    obtain hmem | rfl := hmem
    · obtain hmem | rfl := List.mem_or_eq_of_mem_set hmem
      · obtain ⟨a, ha⟩ := List.mem_iff_getElem?.1 hmem
        exact h.sorted ha
      · exact hfork
    · exact hfork
  found hx := by
    obtain ⟨-, -, hold⟩ | ⟨-, rfl, hold⟩ := fork_binds hp hx
    · exact h.found hold
    · exact h.found (p := p) hold
  owner_le hx := by
    obtain ⟨-, -, hold⟩ | ⟨-, rfl, hold⟩ := fork_binds hp hx
    · exact h.owner_le hold
    · exact Nat.le_succ_of_le (h.owner_le hold)
  apart {a r k x b t l y} hx hy hplace := by
    obtain ⟨hai, halt, hx'⟩ | ⟨ha, rfl, hx'⟩ := fork_binds hp hx
    · obtain ⟨-, -, hy'⟩ | ⟨hb, rfl, hy'⟩ := fork_binds hp hy
      · exact h.apart hx' hy' hplace
      · obtain ⟨heq, -⟩ | ⟨-, hlt⟩ := h.apart hx' hy' hplace
        · exact absurd heq hai
        · exact .inr ⟨by omega, hlt⟩
    · have hlt : x.owner < p.space.epoch + 1 := Nat.lt_succ_of_le (h.owner_le hx')
      obtain ⟨hbi, hblt, hy'⟩ | ⟨hb, rfl, hy'⟩ := fork_binds hp hy
      · exact .inr ⟨by omega, hlt⟩
      · -- both entries are of the one that forks, which tells its objects apart
        obtain ⟨-, hkl⟩ | ⟨hne, -⟩ := h.apart hx' hy' hplace
        · by_cases hab : a = b
          · exact .inl ⟨hab, hkl⟩
          · exact .inr ⟨hab, hlt⟩
        · exact absurd rfl hne

/-! ### One object at a time -/

theorem set_binds {r : Member} (hp : F.members[i]? = some p)
    (h : Binds { members := F.members.set i r, contents := cs } j q k x) :
    (j ≠ i ∧ F.Binds j q k x) ∨ (j = i ∧ q = r ∧ r.space.objects.get? k = some x) := by
  obtain ⟨hmember, hbound⟩ := h
  by_cases hij : i = j
  · subst hij
    rw [List.getElem?_set_self (List.getElem?_eq_some_iff.1 hp).1] at hmember
    obtain rfl := Option.some.inj hmember
    exact .inr ⟨rfl, rfl, hbound⟩
  · rw [List.getElem?_set_ne hij] at hmember
    exact .inl ⟨Ne.symm hij, hmember, hbound⟩

theorem Coherent.set {r : Member} (key : ObjectKey) (h : F.Coherent) (hp : F.members[i]? = some p)
    (hsorted : r.space.objects.Sorted) (hepoch : r.space.epoch = p.space.epoch)
    (halone : ∀ {j q l y}, F.Binds j q l y → q.place l = n → j = i ∧ l = key)
    (hstore : ∀ a, a ≠ n → a < F.contents.length → cs[a]? = F.contents[a]?)
    (hbound : ∀ k x, r.space.objects.get? k = some x →
      (k ≠ key ∧ p.space.objects.get? k = some x ∧ r.place k = p.place k) ∨
        (k = key ∧ x.owner = p.space.epoch ∧ r.place k = n ∧ cs[n]? = some x)) :
    Coherent { members := F.members.set i r, contents := cs } := by
  -- what a member has is what it had, elsewhere, or it is the new contents
  have hcases : ∀ {j q k x}, Binds { members := F.members.set i r, contents := cs } j q k x →
      (q.place k ≠ n ∧ ∃ old, F.Binds j old k x ∧ old.place k = q.place k ∧ old.space.epoch = q.space.epoch) ∨
        (q.place k = n ∧ j = i ∧ k = key ∧ x.owner = q.space.epoch ∧ cs[n]? = some x) := by
    intro j q k x hx
    obtain ⟨hji, hx⟩ | ⟨rfl, rfl, hget⟩ := set_binds hp hx
    · exact .inl ⟨fun hn ↦ hji (halone hx hn).1, q, hx, rfl, rfl⟩
    · obtain ⟨hk, hget, hplace⟩ | ⟨rfl, howner, hplace, hc⟩ := hbound k x hget
      · have hx : F.Binds j p k x := ⟨hp, hget⟩
        exact .inl ⟨fun hn ↦ hk (halone hx (hplace ▸ hn)).2, p, hx, hplace.symm, hepoch.symm⟩
      · exact .inr ⟨hplace, rfl, rfl, howner.trans hepoch.symm, hc⟩
  constructor
  · intro j q hq
    by_cases hij : i = j
    · subst hij
      rw [List.getElem?_set_self (List.getElem?_eq_some_iff.1 hp).1] at hq
      exact Option.some.inj hq ▸ hsorted
    · rw [List.getElem?_set_ne hij] at hq
      exact h.sorted hq
  · intro j q k x hx
    obtain ⟨hn, old, hx, hplace, -⟩ | ⟨hn, -, -, -, hc⟩ := hcases hx
    · rw [hstore _ hn (hplace ▸ h.lt_length hx), ← hplace]
      exact h.found hx
    · rw [hn]
      exact hc
  · intro j q k x hx
    obtain ⟨-, old, hx, -, he⟩ | ⟨-, -, -, howner, -⟩ := hcases hx
    · exact he ▸ h.owner_le hx
    · exact Nat.le_of_eq howner
  · intro a s k x b t l y hx hy hplace
    obtain ⟨hn, old, hx, hs, he⟩ | ⟨hn, ha, hk, -, -⟩ := hcases hx
    · obtain ⟨-, old', hy, ht, -⟩ | ⟨hn', -⟩ := hcases hy
      · exact he ▸ h.apart hx hy (hs.trans (hplace.trans ht.symm))
      · exact absurd (hplace.trans hn') hn
    · obtain ⟨hn', -⟩ | ⟨-, hb, hl, -, -⟩ := hcases hy
      · exact absurd (hplace.symm.trans hn) hn'
      · exact .inl ⟨ha.trans hb.symm, hk.trans hl.symm⟩

theorem Coherent.not_at_end (h : F.Coherent) (hx : F.Binds i p k x) : p.place k ≠ F.contents.length :=
  Nat.ne_of_lt (h.lt_length hx)

theorem Coherent.bind (h : F.Coherent) (hp : F.members[i]? = some p) (hm : p.space.bind x = .ok m) :
    Coherent
      { members := F.members.set i (p.moved m x.object.key F.contents.length)
        contents := F.contents ++ [{ x with owner := p.space.epoch }] } := by
  obtain rfl := AddressSpace.eq_of_bind hm
  refine h.set x.object.key hp (h.sorted hp).insert rfl (fun hy hn ↦ absurd hn (h.not_at_end hy))
    (fun a _ ha ↦ List.getElem?_append_left ha) fun k y hy ↦ ?_
  rw [Member.moved] at hy ⊢
  dsimp only at hy ⊢
  rw [AvlMap.get?_insert (h.sorted hp)] at hy
  split at hy
  · rename_i hk
    obtain rfl := Option.some.inj hy
    exact .inr ⟨hk, rfl, by rw [hk, Function.update_self], List.getElem?_concat_length⟩
  · rename_i hk
    exact .inl ⟨hk, hy, Function.update_of_ne hk ..⟩

theorem Coherent.unbind (h : F.Coherent) (hp : F.members[i]? = some p) (hm : p.space.unbind o = .ok m) :
    Coherent { F with members := F.members.set i { p with space := m } } := by
  obtain rfl := AddressSpace.eq_of_unbind hm
  refine h.set o.key hp (h.sorted hp).erase rfl (fun hy hn ↦ absurd hn (h.not_at_end hy))
    (fun _ _ _ ↦ rfl) fun k y hy ↦ ?_
  dsimp only at hy
  rw [AvlMap.get?_erase (h.sorted hp)] at hy
  split at hy
  · cases hy
  · rename_i hk
    exact .inl ⟨hk, hy, rfl⟩

theorem Coherent.change (h : F.Coherent) (hp : F.members[i]? = some p) (hx : p.space.find? o = some x)
    (howner : x.owner = p.space.epoch) (hy : f x = .ok y) (hkept : y.owner = x.owner)
    (hm : p.space.modify o f = .ok m) :
    Coherent
      { members := F.members.set i { p with space := m }
        contents := F.contents.set (p.place o.key) y } := by
  have hbinds : F.Binds i p o.key x := ⟨hp, hx⟩
  have hown : f { x with owner := p.space.epoch } = .ok y := by
    rw [← howner]
    exact hy
  obtain rfl := AddressSpace.eq_of_modify hx hown hm
  refine h.set o.key hp ((h.sorted hp).modify _) rfl (h.alone hbinds howner)
    (fun a ha _ ↦ List.getElem?_set_ne (Ne.symm ha)) fun k z hz ↦ ?_
  dsimp only at hz
  rw [AvlMap.get?_modify (h.sorted hp)] at hz
  split at hz
  · rename_i hk
    obtain ⟨_, -, rfl⟩ := Option.map_eq_some_iff.1 hz
    exact .inr ⟨hk, hkept.trans howner, congrArg p.place hk, List.getElem?_set_self (h.lt_length hbinds)⟩
  · rename_i hk
    exact .inl ⟨hk, hz, rfl⟩

theorem Coherent.copy (h : F.Coherent) (hp : F.members[i]? = some p) (hx : p.space.find? o = some x)
    (hy : f { x with owner := p.space.epoch } = .ok y) (hkept : y.owner = p.space.epoch)
    (hm : p.space.modify o f = .ok m) :
    Coherent
      { members := F.members.set i (p.moved m o.key F.contents.length)
        contents := F.contents ++ [y] } := by
  obtain rfl := AddressSpace.eq_of_modify hx hy hm
  refine h.set o.key hp ((h.sorted hp).modify _) rfl (fun hz hn ↦ absurd hn (h.not_at_end hz))
    (fun a _ ha ↦ List.getElem?_append_left ha) fun k z hz ↦ ?_
  rw [Member.moved] at hz ⊢
  dsimp only at hz ⊢
  rw [AvlMap.get?_modify (h.sorted hp)] at hz
  split at hz
  · rename_i hk
    obtain ⟨_, -, rfl⟩ := Option.map_eq_some_iff.1 hz
    exact .inr ⟨hk, hkept, by rw [hk, Function.update_self], List.getElem?_concat_length⟩
  · rename_i hk
    exact .inl ⟨hk, hz, Function.update_of_ne hk ..⟩

theorem Coherent.grows (h : F.Coherent) (hstep : F.Grows F') : F'.Coherent := by
  cases hstep with
  | fork hp => exact h.fork hp
  | bind hp hm => exact h.bind hp hm
  | unbind hp hm => exact h.unbind hp hm
  | change hp hx howner hy hkept hm => exact h.change hp hx howner hy hkept hm
  | copy hp hx _ hy hkept hm => exact h.copy hp hx hy hkept hm

theorem Grown.coherent (h : F.Grown) : F.Coherent := by
  induction h with
  | refl => exact coherent_empty
  | tail _ hstep ih => exact ih.grows hstep

/-! ## Memory that is owned -/

def held (F : Family) (n : Nat) : Nat := (F.contents[n]?.map (·.footprint)).getD 0

theorem Coherent.exists_of_mem_owned (h : F.Coherent) (hp : F.members[i]? = some p) (hn : n ∈ p.owned) :
    ∃ k x, F.Binds i p k x ∧ x.owner = p.space.epoch ∧ p.place k = n := by
  obtain ⟨⟨k, x⟩, hq, rfl⟩ := List.mem_map.1 hn
  obtain ⟨hq, howner⟩ := List.mem_filter.1 hq
  exact ⟨k, x, ⟨hp, (AvlMap.get?_eq_some (h.sorted hp)).2 hq⟩, of_decide_eq_true howner, rfl⟩

theorem Coherent.nodup_owned (h : F.Coherent) (hp : F.members[i]? = some p) : p.owned.Nodup := by
  refine List.Nodup.map_on (fun q hq q' hq' hplace ↦ ?_) ?_
  · obtain ⟨hq, -⟩ := List.mem_filter.1 hq
    obtain ⟨hq', -⟩ := List.mem_filter.1 hq'
    have hget := (AvlMap.get?_eq_some (h.sorted hp)).2 hq
    have hget' := (AvlMap.get?_eq_some (h.sorted hp)).2 hq'
    obtain ⟨-, hkey⟩ | ⟨hne, -⟩ := h.apart ⟨hp, hget⟩ ⟨hp, hget'⟩ hplace
    · rw [hkey, hget'] at hget
      exact Prod.ext hkey (Option.some.inj hget).symm
    · exact absurd rfl hne
  · refine List.Nodup.filter _ ((h.sorted hp).imp fun {q q'} hlt heq ↦ ?_)
    have hself : compare q'.1 q'.1 = .eq := Std.ReflCmp.compare_self
    rw [heq, hself] at hlt
    cases hlt

theorem Coherent.nodup_owned_members (h : F.Coherent) : (F.members.flatMap Member.owned).Nodup := by
  refine List.nodup_flatMap.2 ⟨fun p hp ↦ ?_, List.pairwise_iff_getElem.2 fun i j hi hj hij ↦ ?_⟩
  · obtain ⟨i, hi⟩ := List.mem_iff_getElem?.1 hp
    exact h.nodup_owned hi
  · intro n hn hn'
    obtain ⟨k, x, hx, howner, hplace⟩ := h.exists_of_mem_owned (List.getElem?_eq_getElem hi) hn
    obtain ⟨l, y, hy, -, hplace'⟩ := h.exists_of_mem_owned (List.getElem?_eq_getElem hj) hn'
    have := (h.alone hx howner hy (hplace'.trans hplace.symm)).1
    omega

theorem Coherent.footprint_eq (h : F.Coherent) (hp : F.members[i]? = some p) :
    p.space.footprint = (p.owned.map F.held).sum := by
  have hheld : ∀ q ∈ p.space.entries, F.held (p.place q.1) = q.2.footprint := by
    intro q hq
    rw [held, h.found ⟨hp, (AvlMap.get?_eq_some (h.sorted hp)).2 hq⟩]
    rfl
  rw [AddressSpace.footprint_eq, AddressSpace.owned, AddressSpace.toList_eq, Member.owned]
  revert hheld
  generalize p.space.entries = l
  intro hheld
  induction l with
  | nil => rfl
  | cons q l ih =>
    rw [List.forall_mem_cons] at hheld
    rw [List.map_cons, List.filter_cons, List.filter_cons]
    split
    · rw [List.map_cons, List.map_cons, List.map_cons, List.sum_cons, List.sum_cons, hheld.1, ih hheld.2]
    · exact ih hheld.2

/-- In a family that grew from one address space, by any mixture of forks, bindings and writes to any of
its members, all members see what is in the store, although contents of the current epoch are changed where
they lie: no other object of any member has its contents there. So the footprints of all members together
count every place at most once. -/
theorem ownership_exclusive (h : F.Grown) :
    (∀ i p k x, F.Binds i p k x → F.contents[p.place k]? = some x ∧ x.owner ≤ p.space.epoch ∧
      (x.owner = p.space.epoch → ∀ j q l y, F.Binds j q l y → q.place l = p.place k → j = i ∧ l = k)) ∧
    (F.members.flatMap Member.owned).Nodup ∧
    (F.members.map (·.space.footprint)).sum = ((F.members.flatMap Member.owned).map F.held).sum := by
  have hcoherent := h.coherent
  refine ⟨fun i p k x hx ↦ ⟨hcoherent.found hx, hcoherent.owner_le hx, fun howner j q l y hy hplace ↦
    hcoherent.alone hx howner hy hplace⟩, hcoherent.nodup_owned_members, ?_⟩
  have hfootprint : ∀ p ∈ F.members, p.space.footprint = (p.owned.map F.held).sum := by
    intro p hp
    obtain ⟨i, hi⟩ := List.mem_iff_getElem?.1 hp
    exact hcoherent.footprint_eq hi
  revert hfootprint
  generalize F.members = l
  intro hfootprint
  induction l with
  | nil => rfl
  | cons p l ih =>
    rw [List.forall_mem_cons] at hfootprint
    rw [List.flatMap_cons, List.map_append, List.sum_append_nat, List.map_cons, List.sum_cons, hfootprint.1,
      ih hfootprint.2]

/-- An object of one byte, which is `b`, in an epoch. -/
def cell (b : UInt8) (owner : Nat) : ObjectState where
  object := { id := 1, address := 16, size := 1, name := "cell" }
  bytes := ⟨#[b]⟩
  owner

def binder : Member :=
  Member.moved {} { objects := (AvlMap.insert ∅ ⟨16, 1⟩ (cell 0 1)).2 } ⟨16, 1⟩ 0

/-- The member was forked, and then one of the two wrote to the object. -/
def parted : Family where
  members := [
    binder.fork.moved { epoch := 2, objects := binder.space.objects.modify ⟨16, 1⟩ fun _ ↦ cell 7 2 } ⟨16, 1⟩ 1,
    binder.fork]
  contents := [cell 0 1, cell 7 2]

theorem grown_parted : parted.Grown := by
  have hbound : Grown { members := [binder], contents := [cell 0 1] } :=
    .single (.bind (F := {}) (i := 0) (p := {}) (x := cell 0 0) rfl rfl)
  have hforked : Grown { members := [binder.fork, binder.fork], contents := [cell 0 1] } :=
    hbound.tail (.fork (i := 0) rfl)
  exact hforked.tail (.copy (i := 0) (p := binder.fork) (o := (cell 0 1).object)
    (f := fun x ↦ x.writeByte 0 7) (x := cell 0 1) (y := cell 7 2) rfl rfl (by decide) rfl rfl rfl)

theorem ownership_exclusive_parted :
    parted.Grown ∧ (parted.members.flatMap Member.owned) = [1] ∧
      (parted.members.map (·.space.footprint)).sum = 1 :=
  ⟨grown_parted, rfl, (ownership_exclusive grown_parted).2.2.trans rfl⟩

end Family

end Symex
