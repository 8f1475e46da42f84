import Symex.Proofs.ByteArrays
import Symex.Proofs.Merging.Bytes

namespace Symex

open Checked

/-- The relation holds at every place of three lists of one length. -/
structure Aligned {α β γ : Type} (R : α → β → γ → Prop) (xs : List α) (ys : List β) (zs : List γ) :
    Prop where
  left_length : xs.length = zs.length
  right_length : ys.length = zs.length
  related : ∀ (i : Nat) x y z, xs[i]? = some x → ys[i]? = some y → zs[i]? = some z → R x y z

namespace Aligned

variable {α β γ : Type} {R : α → β → γ → Prop} {x : α} {y : β} {z : γ} {xs : List α} {ys : List β}
  {zs : List γ}

theorem nil : Aligned R [] [] [] := ⟨rfl, rfl, by simp⟩

theorem cons (h : R x y z) (hs : Aligned R xs ys zs) : Aligned R (x :: xs) (y :: ys) (z :: zs) := by
  refine ⟨by simp [hs.left_length], by simp [hs.right_length], fun i ↦ ?_⟩
  cases i with
  | zero =>
    rintro _ _ _ ⟨⟩ ⟨⟩ ⟨⟩
    exact h
  | succ i => exact hs.related i

theorem of_mapM_zip {f : α × β → Checked γ} (hlength : xs.length = ys.length)
    (hf : ∀ q ∈ xs.zip ys, ∀ z, f q = .ok z → R q.1 q.2 z) (h : (xs.zip ys).mapM f = .ok zs) :
    Aligned R xs ys zs := by
  induction xs generalizing ys zs with
  | nil =>
    obtain rfl : ys = [] := List.length_eq_zero_iff.1 hlength.symm
    obtain rfl : [] = zs := by simpa using h
    exact .nil
  | cons x xs ih =>
    cases ys with
    | nil => simp at hlength
    | cons y ys =>
      rw [List.zip_cons_cons, List.forall_mem_cons] at hf
      rw [List.zip_cons_cons, List.mapM_cons, bind_eq_ok] at h
      obtain ⟨z, hz, h⟩ := h
      obtain ⟨zs', hzs, h⟩ := bind_eq_ok.1 h
      obtain rfl := pure_eq_ok.1 h
      exact .cons (hf.1 z hz) (ih (by simpa using hlength) hf.2 hzs)

theorem all_zip_left {p : γ → α → Bool} (h : Aligned R xs ys zs) (hp : ∀ x y z, R x y z → p z x) :
    (zs.zip xs).all fun q ↦ p q.1 q.2 := by
  rw [List.all_eq_true]
  rintro ⟨z, x⟩ hq
  obtain ⟨i, hi⟩ := List.mem_iff_getElem?.1 hq
  rw [List.getElem?_zip_eq_some] at hi
  obtain ⟨hi', -⟩ := List.getElem?_eq_some_iff.1 hi.1
  rw [← h.right_length] at hi'
  exact hp x _ z (h.related i x _ z hi.2 (getElem?_pos ys i hi') hi.1)

theorem all_zip_right {p : γ → β → Bool} (h : Aligned R xs ys zs) (hp : ∀ x y z, R x y z → p z y) :
    (zs.zip ys).all fun q ↦ p q.1 q.2 := by
  rw [List.all_eq_true]
  rintro ⟨z, y⟩ hq
  obtain ⟨i, hi⟩ := List.mem_iff_getElem?.1 hq
  rw [List.getElem?_zip_eq_some] at hi
  obtain ⟨hi', -⟩ := List.getElem?_eq_some_iff.1 hi.1
  rw [← h.left_length] at hi'
  exact hp _ y z (h.related i _ y z (getElem?_pos xs i hi') hi.2 hi.1)

end Aligned

namespace State

def Admits (s : State) (a : Assignment) : Prop := a.satisfies? s.constraints.toList = some true

/-- Wherever the path of the state is taken, `e` has the value of `x`. -/
structure Agrees (s : State) (x e : Expr) : Prop where
  width_eq : e.width = x.width
  value_eq : ∀ a : Assignment, a.Total → s.Admits a → a.value? e = a.value? x

/-- The terms of the state are well-formed, and its objects are found by their keys. -/
structure Formed (s : State) : Prop where
  constraints : s.constraints.Valid
  threads : ∀ t ∈ s.threads, t.WellFormed
  sorted : s.memory.objects.Sorted
  keyed : ∀ p ∈ s.memory.entries, p.1 = p.2.object.key
  contents : ∀ p ∈ s.memory.entries, p.2.Formed

end State

variable {s t m : State}

/-- The frame `h` stands for `f` on the path of `s` and for `g` on that of `t`. A register whose values do
not fit together has none. -/
structure Frame.Joins (s t : State) (f g h : Frame) : Prop where
  sameShape_left : h.sameShape f
  sameShape_right : h.sameShape g
  undefined_iff : ∀ r, h.read? r = none ↔ f.read? r = none ∨ g.read? r = none ∨
    ∃ x y, f.read? r = some x ∧ g.read? r = some y ∧ x.width ≠ y.width
  agrees : ∀ r x y, f.read? r = some x → g.read? r = some y → x.width = y.width →
    ∃ e, h.read? r = some e ∧ s.Agrees x e ∧ t.Agrees y e

structure Thread.Joins (s t : State) (u v w : Thread) : Prop where
  sameShape_left : w.sameShape u
  sameShape_right : w.sameShape v
  frames : Aligned (Frame.Joins s t) u.stack v.stack w.stack

/-- Each byte of `z` stands for that of `x` on the path of `s` and for that of `y` on the path of `t`. -/
structure ObjectState.Joins (s t : State) (x y z : ObjectState) : Prop where
  object_eq : z.object = x.object
  id_eq : z.object.id = y.object.id
  size_eq : z.size = x.size
  agrees : ∀ i < z.size, ∃ ex ey ez, x.readByte i = .ok ex ∧ y.readByte i = .ok ey ∧
    z.readByte i = .ok ez ∧ s.Agrees ex ez ∧ t.Agrees ey ez

/-- The state `m` stands for both `s` and `t`. -/
structure State.Joins (s t m : State) : Prop where
  admits_iff : ∀ a : Assignment, a.Total → (m.Admits a ↔ s.Admits a ∨ t.Admits a)
  current_eq : m.current = s.current ∧ m.current = t.current
  threads : Aligned (Thread.Joins s t) s.threads t.threads m.threads
  memory : Aligned (ObjectState.Joins s t) s.memory.toList t.memory.toList m.memory.toList
  waitLists_eq : m.waitLists.toList = s.waitLists.toList ∧ m.waitLists.toList = t.waitLists.toList
  symbolics_eq : m.symbolics.map (·.object.id) = s.symbolics.map (·.object.id) ∧
    m.symbolics.map (·.object.id) = t.symbolics.map (·.object.id) ∧ m.arrays = s.arrays ∧
    m.arrays = t.arrays

/-! ## Constraints -/

section

variable {es : List Expr} {e : Expr}

theorem Expr.mkAll_eq_ok (hes : ∀ c ∈ es, c.IsTruth) (h : mkAll es = .ok e) :
    e.IsTruth ∧ ∀ a : Assignment, a.free → (a.val e ≠ 0 ↔ ∀ c ∈ es, a.val c ≠ 0) := by
  have hfold : ∀ (es : List Expr) (acc : Expr), (∀ c ∈ es, c.IsTruth) → acc.IsTruth →
      es.foldlM mkAnd acc = .ok e → e.IsTruth ∧ ∀ a : Assignment, a.free →
        (a.val e ≠ 0 ↔ a.val acc ≠ 0 ∧ ∀ c ∈ es, a.val c ≠ 0) := by
    intro es
    induction es with
    | nil =>
      intro acc _ hacc h
      obtain rfl : acc = e := by simpa using h
      exact ⟨hacc, fun a _ ↦ by simp⟩
    | cons c es ih =>
      intro acc hes hacc h
      rw [List.forall_mem_cons] at hes
      rw [List.foldlM_cons, bind_eq_ok] at h
      obtain ⟨both, hboth, h⟩ := h
      obtain ⟨htruth, hval⟩ := (safe_mkAnd hacc hes.1).of_eq hboth
      refine ⟨(ih both hes.2 htruth h).1, fun a ha ↦ ?_⟩
      rw [(ih both hes.2 htruth h).2 a ha, hval a ha, List.forall_mem_cons, and_assoc]
  obtain ⟨htruth, hval⟩ := hfold es (.bool true) hes ⟨bool_wellFormed true, rfl⟩ h
  refine ⟨htruth, fun a ha ↦ ?_⟩
  rw [hval a ha]
  simp [bool]

theorem Expr.exists_mkAll (hes : ∀ c ∈ es, c.IsTruth) : ∃ e, mkAll es = .ok e := by
  have hfold : ∀ (es : List Expr) (acc : Expr), (∀ c ∈ es, c.IsTruth) → acc.IsTruth →
      ∃ e, es.foldlM mkAnd acc = .ok e := by
    intro es
    induction es with
    | nil => exact fun acc _ _ ↦ ⟨acc, rfl⟩
    | cons c es ih =>
      intro acc hes hacc
      rw [List.forall_mem_cons] at hes
      have hand : mkAnd acc c = .ok (binaryCore .and acc c) :=
        mkBinary_eq_ok.2 ⟨hacc.2.trans hes.1.2.symm, rfl⟩
      obtain ⟨e, he⟩ := ih _ hes.2 ((safe_mkAnd hacc hes.1).of_eq hand).1
      exact ⟨e, by rw [List.foldlM_cons, hand, ok_bind, he]⟩
  exact hfold es (.bool true) hes ⟨bool_wellFormed true, rfl⟩

end

namespace State

theorem forall_shared_and_alone {P : Expr → Prop} (ours theirs : List Expr) :
    ((∀ c ∈ ours, c ∈ theirs → P c) ∧ ∀ c ∈ ours.filter (!theirs.contains ·), P c) ↔ ∀ c ∈ ours, P c := by
  constructor
  · intro h c hc
    by_cases hmem : c ∈ theirs
    · exact h.1 c hc hmem
    · exact h.2 c (List.mem_filter.2 ⟨hc, by simpa using hmem⟩)
  · exact fun h ↦ ⟨fun c hc _ ↦ h c hc, fun c hc ↦ h c (List.mem_filter.1 hc).1⟩

theorem admits_iff {a : Assignment} (ha : a.free) :
    s.Admits a ↔ ∀ c ∈ s.constraints.toList, a.val c ≠ 0 := by
  rw [Admits, Assignment.satisfies?_eq_true]
  exact forall₂_congr fun c _ ↦ Assignment.holds_iff_val ha

/-- The condition `c` tells the path of `s` from that of `t`. -/
structure Separates (c : Expr) (s t : State) : Prop where
  wellFormed : c.WellFormed
  val_ne_zero : ∀ a : Assignment, a.free → s.Admits a → a.val c ≠ 0
  val_eq_zero : ∀ a : Assignment, a.free → t.Admits a → a.val c = 0

theorem Separates.agrees {c x y e : Expr} (h : Separates c s t) (hp : Expr.Picks c x y e)
    (hx : x.WellFormed) (hy : y.WellFormed) : s.Agrees x e ∧ t.Agrees y e := by
  obtain ⟨hwx, hwy⟩ := hp.width_eq h.wellFormed hx hy
  have hvalue : ∀ {a : Assignment} {x y : Expr}, a.free → a.val x = a.val y → a.value? x = a.value? y := by
    intro a x y ha hval
    rw [a.value?_eq_eval, a.value?_eq_eval, a.eval_eq_val ha, a.eval_eq_val ha, hval]
  refine ⟨⟨hwx, fun a ha hs ↦ ?_⟩, ⟨hwx.trans hwy, fun a ha ht ↦ ?_⟩⟩
  · have ha := Assignment.total_iff_free.1 ha
    refine hvalue ha ?_
    rw [hp.val_eq ha h.wellFormed hx hy, if_neg (h.val_ne_zero a ha hs)]
  · have ha := Assignment.total_iff_free.1 ha
    refine hvalue ha ?_
    rw [hp.val_eq ha h.wellFormed hx hy, if_pos (h.val_eq_zero a ha ht)]

/-! ## Registers -/

theorem mergeLocal_eq_ok {c : Expr} {x? y? e? : Option Expr} (h : mergeLocal c x? y? = .ok e?) :
    (e? = none ↔ x? = none ∨ y? = none ∨ ∃ x y, x? = some x ∧ y? = some y ∧ x.width ≠ y.width) ∧
      ∀ x y, x? = some x → y? = some y → x.width = y.width → ∃ e, e? = some e ∧ Expr.Picks c x y e := by
  cases x? with
  | none =>
    obtain rfl : none = e? := by simpa [mergeLocal] using h
    simp
  | some x =>
    cases y? with
    | none =>
      obtain rfl : none = e? := by simpa [mergeLocal] using h
      simp
    | some y =>
      simp only [mergeLocal] at h
      split at h
      · rename_i heq
        obtain rfl : some x = e? := by simpa using h
        refine ⟨by simp [heq], ?_⟩
        rintro _ _ ⟨⟩ ⟨⟩ -
        exact ⟨x, rfl, .inl ⟨heq, rfl⟩⟩
      · split at h
        · rename_i hw
          obtain ⟨e, he, h⟩ := bind_eq_ok.1 h
          obtain rfl : some e = e? := by simpa using h
          refine ⟨by simp [hw], ?_⟩
          rintro _ _ ⟨⟩ ⟨⟩ -
          exact ⟨e, rfl, .inr he⟩
        · rename_i hw
          obtain rfl : none = e? := by simpa using h
          refine ⟨by simpa using hw, ?_⟩
          rintro _ _ ⟨⟩ ⟨⟩ hw'
          exact absurd hw' hw

variable {c : Expr}

theorem Separates.joins_frame {f g h : Frame} (hc : Separates c s t) (hf : f.WellFormed)
    (hg : g.WellFormed) (hshape : f.sameShape g) (hm : mergeFrame c f g = .ok h) :
    Frame.Joins s t f g h := by
  obtain ⟨locals, hlocals, hm⟩ := bind_eq_ok.1 hm
  obtain rfl := pure_eq_ok.1 hm
  have hshape' := hshape
  simp only [Frame.sameShape, Bool.and_eq_true, beq_iff_eq] at hshape'
  obtain ⟨⟨⟨⟨hfunction, hcaller⟩, hsize⟩, hallocas⟩, hvarargs⟩ := hshape'
  rw [Array.mapM_eq_mapM_toList, map_eq_ok] at hlocals
  obtain ⟨values, hvalues, rfl⟩ := hlocals
  rw [Array.toList_zip] at hvalues
  have haligned := Aligned.of_mapM_zip (R := fun x y e ↦ mergeLocal c x y = .ok e) hsize
    (fun q _ e he ↦ he) hvalues
  have hsize' : values.length = f.locals.size := haligned.left_length.symm
  -- a register is one of all three frames or of none
  have hread : ∀ r, mergeLocal c (f.read? r) (g.read? r) =
      .ok (Frame.read? { f with locals := values.toArray } r) := by
    intro r
    unfold Frame.read?
    by_cases hr : r < f.locals.size
    · have hrg : r < g.locals.size := hsize ▸ hr
      have hrv : r < values.length := hsize' ▸ hr
      simp only [List.getElem?_toArray, getElem?_pos f.locals r hr, getElem?_pos g.locals r hrg,
        getElem?_pos values r hrv]
      exact haligned.related r _ _ _ (by simp [hr]) (by simp [hrg]) (getElem?_pos values r hrv)
    · have hrg : ¬r < g.locals.size := hsize ▸ hr
      have hrv : ¬r < values.length := hsize' ▸ hr
      simp only [List.getElem?_toArray, getElem?_neg f.locals r hr, getElem?_neg g.locals r hrg,
        getElem?_neg values r hrv]
      rfl
  refine ⟨?_, ?_, fun r ↦ (mergeLocal_eq_ok (hread r)).1, fun r x y hx hy hw ↦ ?_⟩
  · simp [Frame.sameShape, hsize']
  · simp [Frame.sameShape, hfunction, hcaller, hsize', hsize, hallocas, hvarargs]
  · obtain ⟨e, he, hp⟩ := (mergeLocal_eq_ok (hread r)).2 x y hx hy hw
    exact ⟨e, he, hc.agrees hp (hf.of_read? hx) (hg.of_read? hy)⟩

theorem Separates.joins_thread {u v w : Thread} (hc : Separates c s t) (hu : u.WellFormed)
    (hv : v.WellFormed) (hshape : u.sameShape v) (hm : mergeThread c u v = .ok w) :
    Thread.Joins s t u v w := by
  obtain ⟨stack, hstack, hm⟩ := bind_eq_ok.1 hm
  obtain rfl := pure_eq_ok.1 hm
  have hshape' := hshape
  simp only [Thread.sameShape, Bool.and_eq_true, beq_iff_eq, List.all_eq_true] at hshape'
  obtain ⟨⟨⟨⟨⟨hid, hpc⟩, henabled⟩, hwaiting⟩, hlength⟩, hframes⟩ := hshape'
  have haligned := Aligned.of_mapM_zip (R := Frame.Joins s t) hlength
    (fun q hq h ↦ hc.joins_frame (hu _ (List.of_mem_zip hq).1) (hv _ (List.of_mem_zip hq).2)
      (hframes q hq)) hstack
  refine ⟨?_, ?_, haligned⟩
  · have hframes := haligned.all_zip_left (p := Frame.sameShape) fun _ _ _ h ↦ h.sameShape_left
    simpa [Thread.sameShape, haligned.left_length] using hframes
  · have hframes := haligned.all_zip_right (p := Frame.sameShape) fun _ _ _ h ↦ h.sameShape_right
    simpa [Thread.sameShape, hid, hpc, henabled, hwaiting, haligned.right_length] using hframes

/-! ## Memory -/

theorem replaceAt_of_sorted {pre post : List Entry} {key : ObjectKey} {x z : ObjectState}
    (h : (pre ++ (key, x) :: post).Pairwise fun p q ↦ compare p.1 q.1 = .lt) :
    Entries.replaceAt key (fun _ ↦ z) (pre ++ (key, x) :: post) = pre ++ (key, z) :: post := by
  rw [List.pairwise_append, List.pairwise_cons] at h
  obtain ⟨-, ⟨hpost, -⟩, hpre⟩ := h
  have hbelow : Entries.AllBelow key pre := fun p hp ↦ hpre p hp _ List.mem_cons_self
  have habove : Entries.AllAbove key post := fun p hp ↦ Std.OrientedCmp.gt_of_lt (hpost p hp)
  have hsplit : Entries.replaceAt key (fun _ ↦ z) (pre ++ (key, x) :: post) =
      Entries.replaceAt key (fun _ ↦ z) pre ++
        (if compare key key = .eq then (key, z) else (key, x)) ::
          Entries.replaceAt key (fun _ ↦ z) post := by
    simp only [Entries.replaceAt, List.map_append, List.map_cons]
  rw [hsplit, hbelow.replaceAt_eq, habove.replaceAt_eq, if_pos Std.ReflCmp.compare_self]

theorem mergeContents_eq_ok {memory memory' : AddressSpace} {x y : ObjectState} {pre post : List Entry}
    (hc : c.WellFormed) (hx : x.Formed) (hy : y.Formed) (hsorted : memory.objects.Sorted)
    (hentries : memory.entries = pre ++ (x.object.key, x) :: post)
    (h : mergeContents c memory x y = .ok memory') :
    ∃ z, ObjectState.Merges c x y z ∧ memory'.objects.Sorted ∧
      memory'.entries = pre ++ (x.object.key, z) :: post := by
  obtain ⟨differing, hdiffering, h⟩ := bind_eq_ok.1 h
  split at h
  · rename_i hnone
    obtain rfl := pure_eq_ok.1 h
    have hempty : differing = [] := List.isEmpty_iff.1 hnone.1
    rw [hempty] at hdiffering
    exact ⟨x, hx.merges (n := x.owner) hy hc hdiffering rfl, hsorted, hentries⟩
  · have hfind : memory.objects.get? x.object.key = some x :=
      (AvlMap.get?_eq_some hsorted).2 (by
        change (x.object.key, x) ∈ memory.entries
        rw [hentries]
        simp)
    rw [AddressSpace.modify, hfind] at h
    obtain ⟨z, hz, h⟩ := bind_eq_ok.1 h
    obtain rfl := pure_eq_ok.1 h
    refine ⟨z, hx.merges hy hc hdiffering hz, hsorted.modify _, ?_⟩
    have hpairwise : memory.entries.Pairwise fun p q ↦ compare p.1 q.1 = .lt := hsorted
    rw [hentries] at hpairwise
    change (memory.objects.modify x.object.key fun _ ↦ z).toList = _
    rw [AvlMap.toList_modify hsorted]
    change Entries.replaceAt x.object.key (fun _ ↦ z) memory.entries = _
    rw [hentries]
    exact replaceAt_of_sorted hpairwise

theorem entries_of_foldlM_mergeContents {memory memory' : AddressSpace} {xs ys : List ObjectState}
    {l : List Entry} (hc : c.WellFormed) (hxs : ∀ x ∈ xs, x.Formed) (hys : ∀ y ∈ ys, y.Formed)
    (hlength : xs.length = ys.length) (hsorted : memory.objects.Sorted)
    (hentries : memory.entries = l ++ xs.map fun x ↦ (x.object.key, x))
    (h : (xs.zip ys).foldlM (fun m (x, y) ↦ mergeContents c m x y) memory = .ok memory') :
    ∃ zs, Aligned (ObjectState.Merges c) xs ys zs ∧ memory'.objects.Sorted ∧
      memory'.entries = l ++ zs.map fun z ↦ (z.object.key, z) := by
  induction xs generalizing ys memory l with
  | nil =>
    obtain rfl : ys = [] := List.length_eq_zero_iff.1 hlength.symm
    obtain rfl : memory = memory' := by simpa using h
    exact ⟨[], .nil, hsorted, by simpa using hentries⟩
  | cons x xs ih =>
    cases ys with
    | nil => simp at hlength
    | cons y ys =>
      rw [List.forall_mem_cons] at hxs hys
      rw [List.zip_cons_cons, List.foldlM_cons] at h
      obtain ⟨memory₁, h₁, h⟩ := bind_eq_ok.1 h
      obtain ⟨z, hz, hsorted₁, hentries₁⟩ := mergeContents_eq_ok hc hxs.1 hys.1 hsorted hentries h₁
      obtain ⟨zs, hzs, hsorted', hentries'⟩ := ih (l := l ++ [(x.object.key, z)]) hxs.2 hys.2
        (by simpa using hlength) hsorted₁ (by rw [hentries₁]; simp) h
      exact ⟨z :: zs, .cons hz hzs, hsorted', by rw [hentries', List.map_cons, hz.object_eq]; simp⟩

theorem foldlM_mergeContents_eq_ok {memory memory' : AddressSpace} {xs ys : List ObjectState}
    {l : List Entry} (hc : c.WellFormed) (hxs : ∀ x ∈ xs, x.Formed) (hys : ∀ y ∈ ys, y.Formed)
    (hlength : xs.length = ys.length) (hsorted : memory.objects.Sorted)
    (hentries : memory.entries = l ++ xs.map fun x ↦ (x.object.key, x))
    (h : (xs.zip ys).foldlM (fun m (x, y) ↦ mergeContents c m x y) memory = .ok memory') :
    ∃ zs, Aligned (ObjectState.Merges c) xs ys zs ∧ memory'.toList = l.map (·.2) ++ zs := by
  obtain ⟨zs, hzs, -, hentries'⟩ := entries_of_foldlM_mergeContents hc hxs hys hlength hsorted hentries h
  exact ⟨zs, hzs, by rw [AddressSpace.toList_eq, hentries']; simp [Function.comp_def]⟩

theorem Separates.joins_contents {x y z : ObjectState} (hc : Separates c s t) (hx : x.Formed)
    (hy : y.Formed) (hid : x.object.id = y.object.id) (h : ObjectState.Merges c x y z) :
    ObjectState.Joins s t x y z := by
  refine ⟨h.object_eq, by rw [h.object_eq, hid], h.size_eq, fun i hi ↦ ?_⟩
  rw [h.size_eq] at hi
  obtain ⟨ex, ey, ez, hex, hey, hez, hp⟩ := h.picks i hi
  exact ⟨ex, ey, ez, hex, hey, hez, hc.agrees hp (hx.of_readByte hex).1 (hy.of_readByte hey).1⟩

/-! ## States -/

theorem Formed.entries_eq (hs : s.Formed) :
    s.memory.entries = s.memory.toList.map fun x ↦ (x.object.key, x) := by
  rw [AddressSpace.toList_eq, List.map_map]
  refine (List.map_id _).symm.trans (List.map_congr_left fun p hp ↦ ?_)
  exact Prod.ext (hs.keyed p hp) rfl

theorem Formed.of_mem_toList (hs : s.Formed) {x : ObjectState} (hx : x ∈ s.memory.toList) :
    x.Formed := by
  rw [AddressSpace.toList_eq] at hx
  obtain ⟨p, hp, rfl⟩ := List.mem_map.1 hx
  exact hs.contents p hp

theorem constraints_of_merge {inFirst inSecond either : Expr} {common constraints : ConstraintSet}
    (hs : s.constraints.Valid) (ht : t.constraints.Valid)
    (hfirst : Expr.mkAll (s.constraints.toList.filter (!t.constraints.toList.contains ·)) = .ok inFirst)
    (hsecond : Expr.mkAll (t.constraints.toList.filter (!s.constraints.toList.contains ·)) = .ok inSecond)
    (hcommon : (s.constraints.toList.filter (t.constraints.toList.contains ·)).foldlM (·.add)
      ({} : ConstraintSet) = .ok common)
    (heither : Expr.mkOr inFirst inSecond = .ok either) (h : common.add either = .ok constraints) :
    inFirst.WellFormed ∧ ∀ a : Assignment, a.free →
      ((∀ c ∈ constraints.toList, a.val c ≠ 0) ↔ s.Admits a ∨ t.Admits a) ∧
      (s.Admits a → a.val inFirst ≠ 0) ∧ (t.Admits a → a.val inFirst ≠ 0 → s.Admits a) := by
  obtain ⟨hfirstTruth, hfirst⟩ := Expr.mkAll_eq_ok (fun c hc ↦ hs.truths c (List.mem_filter.1 hc).1) hfirst
  obtain ⟨hsecondTruth, hsecond⟩ :=
    Expr.mkAll_eq_ok (fun c hc ↦ ht.truths c (List.mem_filter.1 hc).1) hsecond
  obtain ⟨heitherTruth, heither⟩ := (Expr.safe_mkOr hfirstTruth hsecondTruth).of_eq heither
  have hshared := ConstraintSet.added_foldlM (fun hs hc ↦ ConstraintSet.added_of_addWithin hs hc)
    ConstraintSet.valid_empty (fun c hc ↦ (hs.truths c (List.mem_filter.1 hc).1).1) hcommon
  have hadded := ConstraintSet.added_of_addWithin hshared.valid heitherTruth.1 h
  refine ⟨hfirstTruth.1, fun a ha ↦ ?_⟩
  have hvalue : ∀ cs : List Expr, a.HoldsAll cs ↔ ∀ c ∈ cs, a.val c ≠ 0 := fun cs ↦
    forall₂_congr fun c _ ↦ Assignment.holds_iff_val ha
  have hboth : (∀ c ∈ s.constraints.toList.filter (t.constraints.toList.contains ·), a.val c ≠ 0) ↔
      ∀ c ∈ s.constraints.toList, c ∈ t.constraints.toList → a.val c ≠ 0 := by
    simp [List.mem_filter]
  have hours := forall_shared_and_alone (P := (a.val · ≠ 0)) s.constraints.toList t.constraints.toList
  have htheirs := forall_shared_and_alone (P := (a.val · ≠ 0)) t.constraints.toList s.constraints.toList
  have hswap : (∀ c ∈ t.constraints.toList, c ∈ s.constraints.toList → a.val c ≠ 0) ↔
      ∀ c ∈ s.constraints.toList, c ∈ t.constraints.toList → a.val c ≠ 0 :=
    ⟨fun h c hc hc' ↦ h c hc' hc, fun h c hc hc' ↦ h c hc' hc⟩
  rw [hswap] at htheirs
  have hconstraints : (∀ c ∈ constraints.toList, a.val c ≠ 0) ↔
      (∀ c ∈ s.constraints.toList, c ∈ t.constraints.toList → a.val c ≠ 0) ∧
        (a.val inFirst ≠ 0 ∨ a.val inSecond ≠ 0) := by
    rw [← hvalue, hadded.holds_iff ha, hshared.holds_iff ha, hvalue, hvalue, hvalue, hboth]
    simp [ConstraintSet.toList, heither a ha]
  rw [admits_iff ha, admits_iff ha, hconstraints, hfirst a ha, hsecond a ha, ← hours, ← htheirs]
  exact ⟨and_or_left, And.right, fun ht hs ↦ ⟨ht.1, hs⟩⟩

/-- Merging two states that exclude each other gives one that stands for both: it has the solutions of
either, and under those of each of the two its registers and the bytes of its objects have the values
that they have there. -/
theorem joins_of_merge (hs : s.Formed) (ht : t.Formed) (h : s.merge t = .ok (some m))
    (hexclusive : ∀ a : Assignment, a.Total → s.Admits a → ¬t.Admits a) : State.Joins s t m := by
  unfold merge at h
  split at h
  · rename_i hmergeable
    simp only [mergeable, Bool.and_eq_true, beq_iff_eq, List.all_eq_true] at hmergeable
    obtain ⟨⟨⟨⟨⟨⟨hcurrent, hlength⟩, hshapes⟩, hsymbolics⟩, harrays⟩, hobjects⟩, hwaitLists⟩ := hmergeable
    obtain ⟨inFirst, hfirst, h⟩ := bind_eq_ok.1 h
    obtain ⟨inSecond, hsecond, h⟩ := bind_eq_ok.1 h
    obtain ⟨common, hcommon, h⟩ := bind_eq_ok.1 h
    obtain ⟨either, heither, h⟩ := bind_eq_ok.1 h
    obtain ⟨constraints, hconstraints, h⟩ := bind_eq_ok.1 h
    obtain ⟨threads, hthreads, h⟩ := bind_eq_ok.1 h
    obtain ⟨memory, hmemory, h⟩ := bind_eq_ok.1 h
    obtain rfl := Option.some.inj (pure_eq_ok.1 h)
    obtain ⟨hwf, hsolutions⟩ := constraints_of_merge hs.constraints ht.constraints hfirst hsecond hcommon
      heither hconstraints
    have hc : Separates inFirst s t := by
      refine ⟨hwf, fun a ha ↦ (hsolutions a ha).2.1, fun a ha hadmits ↦ ?_⟩
      refine Decidable.of_not_not fun hne ↦ ?_
      exact hexclusive a (Assignment.total_iff_free.2 ha) ((hsolutions a ha).2.2 hadmits hne) hadmits
    have hlist : s.memory.toList.length = t.memory.toList.length := by
      simpa using congrArg List.length hobjects
    obtain ⟨zs, hzs, hmemory⟩ := foldlM_mergeContents_eq_ok (l := []) hwf
      (fun x ↦ hs.of_mem_toList) (fun y ↦ ht.of_mem_toList) hlist hs.sorted
      (by rw [hs.entries_eq, List.nil_append]) hmemory
    refine ⟨fun a ha ↦ ?_, ⟨rfl, hcurrent⟩, ?_, ?_, ⟨rfl, hwaitLists⟩, rfl, hsymbolics, rfl, harrays⟩
    · rw [admits_iff (Assignment.total_iff_free.1 ha)]
      exact (hsolutions a (Assignment.total_iff_free.1 ha)).1
    · exact Aligned.of_mapM_zip hlength (fun q hq w ↦ hc.joins_thread
        (hs.threads _ (List.of_mem_zip hq).1) (ht.threads _ (List.of_mem_zip hq).2) (hshapes q hq)) hthreads
    · rw [hmemory]
      refine ⟨hzs.left_length, hzs.right_length, fun i x y z hx hy hz ↦ ?_⟩
      have hid : x.object.id = y.object.id := by
        have := congrArg (·[i]?) hobjects
        simpa [hx, hy] using this
      exact hc.joins_contents (hs.of_mem_toList (List.mem_of_getElem? hx))
        (ht.of_mem_toList (List.mem_of_getElem? hy)) hid (hzs.related i x y z hx hy hz)
  · cases h

/-! ## Merging gives a result -/

theorem exists_mergeLocal (hcw : c.width = 1) (x? y? : Option Expr) :
    ∃ e?, mergeLocal c x? y? = .ok e? := by
  cases x? with
  | none => exact ⟨_, rfl⟩
  | some x =>
    cases y? with
    | none => exact ⟨_, rfl⟩
    | some y =>
      simp only [mergeLocal]
      split
      · exact ⟨_, rfl⟩
      · split
        · rw [Expr.mkSelect, demand_of ⟨hcw, ‹_›⟩]
          exact ⟨_, rfl⟩
        · exact ⟨_, rfl⟩

theorem exists_mapM {α β : Type} {f : α → Checked β} {l : List α} (h : ∀ x ∈ l, ∃ y, f x = .ok y) :
    ∃ r, l.mapM f = .ok r := by
  induction l with
  | nil => exact ⟨[], rfl⟩
  | cons x l ih =>
    rw [List.forall_mem_cons] at h
    obtain ⟨y, hy⟩ := h.1
    obtain ⟨r, hr⟩ := ih h.2
    exact ⟨y :: r, by rw [List.mapM_cons, hy, ok_bind, hr]; rfl⟩

theorem exists_mergeFrame (hcw : c.width = 1) (f g : Frame) : ∃ h, mergeFrame c f g = .ok h := by
  obtain ⟨values, hvalues⟩ := exists_mapM (l := (f.locals.zip g.locals).toList)
    fun q _ ↦ exists_mergeLocal hcw q.1 q.2
  refine ⟨_, bind_eq_ok.2 ⟨values.toArray, ?_, rfl⟩⟩
  rw [Array.mapM_eq_mapM_toList, hvalues]
  rfl

theorem exists_mergeThread (hcw : c.width = 1) (u v : Thread) : ∃ w, mergeThread c u v = .ok w := by
  obtain ⟨stack, hstack⟩ := exists_mapM (l := u.stack.zip v.stack)
    fun q _ ↦ exists_mergeFrame hcw q.1 q.2
  exact ⟨_, bind_eq_ok.2 ⟨stack, hstack, rfl⟩⟩

theorem exists_foldlM_mergeContents {memory : AddressSpace} {xs ys : List ObjectState} {l : List Entry}
    (hc : c.WellFormed) (hcw : c.width = 1) (hxs : ∀ x ∈ xs, x.Formed) (hys : ∀ y ∈ ys, y.Formed)
    (hsizes : ∀ q ∈ xs.zip ys, q.1.size ≤ q.2.size) (hsorted : memory.objects.Sorted)
    (hentries : memory.entries = l ++ xs.map fun x ↦ (x.object.key, x)) :
    ∃ memory', (xs.zip ys).foldlM (fun m (x, y) ↦ mergeContents c m x y) memory = .ok memory' := by
  induction xs generalizing ys memory l with
  | nil => exact ⟨memory, rfl⟩
  | cons x xs ih =>
    cases ys with
    | nil => exact ⟨memory, rfl⟩
    | cons y ys =>
      rw [List.forall_mem_cons] at hxs hys
      rw [List.zip_cons_cons, List.forall_mem_cons] at hsizes
      obtain ⟨memory₁, h₁⟩ : ∃ memory₁, mergeContents c memory x y = .ok memory₁ := by
        obtain ⟨differing, hdiffering⟩ := ObjectState.exists_differingBytes hxs.1 hys.1 hsizes.1
        obtain ⟨z, hz⟩ := hxs.1.exists_merges (n := memory.epoch) hys.1 hc hcw hdiffering
        rw [mergeContents, hdiffering, ok_bind]
        split
        · exact ⟨memory, rfl⟩
        · rw [AddressSpace.modify, (AvlMap.get?_eq_some hsorted).2 (by
            change (x.object.key, x) ∈ memory.entries
            rw [hentries]
            simp)]
          exact ⟨_, bind_eq_ok.2 ⟨z, hz, rfl⟩⟩
      obtain ⟨z, -, hsorted₁, hentries₁⟩ := mergeContents_eq_ok hc hxs.1 hys.1 hsorted hentries h₁
      obtain ⟨memory', h⟩ := ih (l := l ++ [(x.object.key, z)]) hxs.2 hys.2 hsizes.2 hsorted₁
        (by rw [hentries₁]; simp)
      refine ⟨memory', ?_⟩
      rw [List.zip_cons_cons, List.foldlM_cons]
      exact bind_eq_ok.2 ⟨memory₁, h₁, h⟩

theorem exists_merge (hs : s.Formed) (ht : t.Formed) (hmergeable : s.mergeable t)
    (hsizes : ∀ q ∈ s.memory.toList.zip t.memory.toList, q.1.size ≤ q.2.size)
    (hsat : ∃ a : Assignment, a.free ∧ s.Admits a) : ∃ m, s.merge t = .ok (some m) := by
  obtain ⟨a, ha, hadmits⟩ := hsat
  have hholds := (admits_iff ha).1 hadmits
  have hours : ∀ c ∈ s.constraints.toList, c.IsTruth := hs.constraints.truths
  have hlength := hmergeable
  simp only [mergeable, Bool.and_eq_true, beq_iff_eq] at hlength
  obtain ⟨inFirst, hfirst⟩ := Expr.exists_mkAll fun c
    (hc : c ∈ s.constraints.toList.filter (!t.constraints.toList.contains ·)) ↦ hours c (List.mem_filter.1 hc).1
  obtain ⟨inSecond, hsecond⟩ := Expr.exists_mkAll fun c
    (hc : c ∈ t.constraints.toList.filter (!s.constraints.toList.contains ·)) ↦
      ht.constraints.truths c (List.mem_filter.1 hc).1
  have hfirst' := Expr.mkAll_eq_ok (fun c hc ↦ hours c (List.mem_filter.1 hc).1) hfirst
  have hsecond' :=
    Expr.mkAll_eq_ok (fun c hc ↦ ht.constraints.truths c (List.mem_filter.1 hc).1) hsecond
  obtain ⟨either, heither⟩ : ∃ e, Expr.mkOr inFirst inSecond = .ok e :=
    ⟨_, Expr.mkBinary_eq_ok.2 ⟨hfirst'.1.2.trans hsecond'.1.2.symm, rfl⟩⟩
  have heither' := (Expr.safe_mkOr hfirst'.1 hsecond'.1).of_eq heither
  -- the solution satisfies what is shared, and what the first state has alone
  have hshared : a.HoldsAll (s.constraints.toList.filter (t.constraints.toList.contains ·)) :=
    fun c hc ↦ (Assignment.holds_iff_val ha).2 (hholds c (List.mem_filter.1 hc).1)
  have hval : a.val either ≠ 0 := (heither'.2 a ha).2
    (.inl ((hfirst'.2 a ha).2 fun c hc ↦ hholds c (List.mem_filter.1 hc).1))
  obtain ⟨common, hcommon⟩ := ConstraintSet.exists_foldlM_add ha ConstraintSet.valid_empty
    (fun c hc ↦ hours c (List.mem_filter.1 hc).1) Assignment.holdsAll_nil hshared
  have hadded := ConstraintSet.added_foldlM (fun hs hc ↦ ConstraintSet.added_of_addWithin hs hc)
    ConstraintSet.valid_empty (fun c hc ↦ (hours c (List.mem_filter.1 hc).1).1) hcommon
  obtain ⟨constraints, hconstraints⟩ := ConstraintSet.exists_addWithin ha hadded.valid heither'.1
    ((hadded.holds_iff ha).2 ⟨Assignment.holdsAll_nil, hshared⟩)
    ((Assignment.holds_iff_val ha).2 hval) (Nat.lt_succ_self _)
  obtain ⟨threads, hthreads⟩ := exists_mapM (l := s.threads.zip t.threads)
    fun q _ ↦ exists_mergeThread hfirst'.1.2 q.1 q.2
  obtain ⟨memory, hmemory⟩ := exists_foldlM_mergeContents (l := []) hfirst'.1.1 hfirst'.1.2
    (fun x ↦ hs.of_mem_toList) (fun y ↦ ht.of_mem_toList) hsizes hs.sorted
    (by rw [hs.entries_eq, List.nil_append])
  refine ⟨{ s with constraints, threads, memory }, ?_⟩
  unfold merge
  rw [if_pos hmergeable]
  simp only [hfirst, hsecond, ok_bind]
  exact bind_eq_ok.2 ⟨common, hcommon, bind_eq_ok.2 ⟨either, heither, bind_eq_ok.2 ⟨constraints, hconstraints,
    bind_eq_ok.2 ⟨threads, hthreads, bind_eq_ok.2 ⟨memory, hmemory, rfl⟩⟩⟩⟩⟩

/-- A state on the path where the input `x` is `n`, with a register and an object that hold `n`. -/
def whereInputIs (n : Nat) : State :=
  { start n 0 1 with
    threads := [{ Thread.start 0 0 1 with stack := [{ function := 0, locals := #[some (.const n 8)] }] }]
    memory := ⟨1, (AvlMap.insert ∅ ⟨4096, 1⟩
      { object := ⟨1, 4096, 1, "o", false, false, false, .unknown⟩, bytes := ⟨#[n.toUInt8]⟩ }).2⟩
    constraints := ⟨#[.compare .eq (.const n 8) (.read (.base (.symbolic "x" 1)) (.const 0 32))], {}⟩ }

theorem formed_whereInputIs {n : Nat} (hn : n < 2 ^ 8) : (whereInputIs n).Formed where
  constraints := by
    refine ⟨?_, fun k v h ↦ by simp [whereInputIs] at h⟩
    rintro c hc
    obtain rfl := List.mem_singleton.1 hc
    simpa [Expr.IsTruth] using hn
  threads := by
    rintro t ht f hf e he
    obtain rfl := List.mem_singleton.1 ht
    obtain rfl := List.mem_singleton.1 hf
    obtain rfl : e = .const n 8 := by simpa using he
    simpa using hn
  sorted := List.pairwise_singleton ..
  keyed := by
    intro p hp
    obtain rfl := List.mem_singleton.1 hp
    rfl
  contents := by
    intro p hp
    obtain rfl := List.mem_singleton.1 hp
    exact (ObjectState.proper_of_concrete (S := fun _ ↦ True) rfl (by decide)).formed

/-- Two states that differ in a register and in memory are merged. -/
theorem joins_of_merge_zero_one :
    ∃ m, (whereInputIs 0).merge (whereInputIs 1) = .ok (some m) ∧
      State.Joins (whereInputIs 0) (whereInputIs 1) m := by
  have hzero := formed_whereInputIs (n := 0) (by decide)
  have hone := formed_whereInputIs (n := 1) (by decide)
  obtain ⟨m, hm⟩ := exists_merge hzero hone (by decide +kernel) (by decide) ⟨⟨true, {}⟩, rfl, rfl⟩
  refine ⟨m, hm, joins_of_merge hzero hone hm fun a _ h h' ↦ ?_⟩
  rw [Admits, Assignment.satisfies?_eq_true] at h h'
  have h := Assignment.holds_eq_const (by simp) (h _ List.mem_cons_self)
  have h' := Assignment.holds_eq_const (by simp) (h' _ List.mem_cons_self)
  rw [h] at h'
  cases h'

end State

end Symex
