import Symex.Proofs.ByteArrays
import Symex.Proofs.Calls.Entering
import Symex.Proofs.Integrity.Shapes

namespace Symex

open Checked

/-! ## Images -/

namespace HostMemory

variable {image image' : HostMemory} {start n len : Nat} {region bytes : ByteArray}

def writes (image : HostMemory) (l : List (Nat × ByteArray)) : Except HostError HostMemory :=
  l.foldlM (fun m w ↦ m.write w.1 w.2) image

theorem region?_map (image : HostMemory) (start : Nat) (bytes : ByteArray) (n : Nat) :
    (image.map start bytes).region? n = if start = n then some bytes else image.region? n := by
  simp only [map, region?, Std.TreeMap.getElem?_insert, Nat.compare_eq_eq]

theorem region?_of_locate {offset : Nat} (h : image.locate n len = .ok (start, region, offset)) :
    image.region? start = some region ∧ n = start + offset ∧ offset + len ≤ region.size := by
  unfold locate at h
  split at h
  · cases h
  · rename_i start' region' hentry
    dsimp only at h
    split at h
    · rename_i hle
      cases h
      have hfind : (image.regions.inner.inner.toListModel.reverse.find? fun e ↦ (compare e.1 n).isLE).map
          (fun e ↦ (e.1, e.2)) = some (start, region) := by
        rw [← hentry, ← List.findRev?_eq_find?_reverse,
          ← Std.DTreeMap.Internal.Impl.getEntryLE?_eq_findRev? image.regions.inner.wf.ordered]
        exact Std.DTreeMap.Internal.Impl.Const.getEntryLE?_eq_map.symm
      obtain ⟨e, he, hpair⟩ := Option.map_eq_some_iff.1 hfind
      cases hpair
      have hle' := List.find?_some he
      have hmem : (e.1, e.2) ∈ image.regions.toList := by
        rw [show image.regions.toList = image.regions.inner.inner.toListModel.map fun e ↦ (e.1, e.2) from
          Std.DTreeMap.Internal.Impl.Const.toList_eq_toListModel_map]
        exact List.mem_map.2 ⟨e, List.mem_reverse.1 (List.mem_of_find?_eq_some he), rfl⟩
      have hstart : e.1 ≤ n := Nat.isLE_compare.1 hle'
      exact ⟨Std.TreeMap.mem_toList_iff_getElem?_eq_some.1 hmem, by omega, hle⟩
    · cases h

/-- The byte at a place of the region that starts at `start`. -/
def byte? (image : HostMemory) (start i : Nat) : Option UInt8 := (image.region? start).bind (·[i]?)

/-- The regions of both images have the same places. -/
def Alike (image image' : HostMemory) : Prop :=
  ∀ start, (image'.region? start).map (·.size) = (image.region? start).map (·.size)

theorem Alike.exists_region (h : image.Alike image') (hregion : image.region? start = some region) :
    ∃ region', image'.region? start = some region' ∧ region'.size = region.size :=
  Option.map_eq_some_iff.1 ((h start).trans (by rw [hregion]; rfl))

theorem size_copySlice {offset : Nat} (hle : offset + bytes.size ≤ region.size) :
    (bytes.copySlice 0 region offset bytes.size).size = region.size := by
  change (_ ++ _ ++ _ : Array UInt8).size = region.data.size
  have hle' : offset + bytes.data.size ≤ region.data.size := hle
  simp only [Array.size_append, Array.size_extract, ByteArray.size_data]
  omega

theorem getElem?_copySlice {offset : Nat} (hle : offset + bytes.size ≤ region.size) (i : Nat) :
    (bytes.copySlice 0 region offset bytes.size)[i]? =
      if offset ≤ i ∧ i < offset + bytes.size then bytes[i - offset]? else region[i]? := by
  have hle' : offset + bytes.data.size ≤ region.data.size := hle
  rw [Bytes.getElem?_eq_data, Bytes.getElem?_eq_data, Bytes.getElem?_eq_data]
  change (region.data.extract 0 offset ++ bytes.data.extract 0 (0 + bytes.size) ++
    region.data.extract (offset + min bytes.size (bytes.data.size - 0)) region.data.size)[i]? = _
  simp only [Array.getElem?_append, Array.size_append, Array.size_extract, Array.getElem?_extract,
    ← ByteArray.size_data]
  grind

/-- A write changes bytes of one region. -/
structure Wrote (image image' : HostMemory) (start offset : Nat) (bytes : ByteArray) : Prop where
  alike : image.Alike image'
  fits : ∃ region, image.region? start = some region ∧ offset + bytes.size ≤ region.size
  byte?_eq : ∀ start' i, image'.byte? start' i =
    if start' = start ∧ offset ≤ i ∧ i < offset + bytes.size then bytes[i - offset]? else image.byte? start' i

theorem exists_wrote (h : image.write n bytes = .ok image') :
    ∃ start offset, n = start + offset ∧ image.Wrote image' start offset bytes := by
  unfold write at h
  cases hlocate : image.locate n bytes.size with
  | error _ =>
    rw [hlocate] at h
    cases h
  | ok found =>
    obtain ⟨start, region, offset⟩ := found
    rw [hlocate] at h
    cases h
    obtain ⟨hregion, hn, hle⟩ := region?_of_locate hlocate
    refine ⟨start, offset, hn, fun start' ↦ ?_, ⟨region, hregion, hle⟩, fun start' i ↦ ?_⟩
    · rw [region?_map]
      split
      · rename_i heq
        rw [← heq, hregion]
        exact congrArg some (size_copySlice hle)
      · rfl
    · rw [byte?, byte?, region?_map]
      by_cases heq : start = start'
      · rw [if_pos heq, ← heq, hregion, Option.bind_some, Option.bind_some, getElem?_copySlice hle]
        simp
      · rw [if_neg heq, if_neg fun h ↦ heq h.1.symm]

theorem alike_of_writes {l : List (Nat × ByteArray)} (h : image.writes l = .ok image') : image.Alike image' := by
  induction l generalizing image with
  | nil =>
    cases h
    exact fun _ ↦ rfl
  | cons w l ih =>
    rw [writes, List.foldlM_cons] at h
    cases hwrite : image.write w.1 w.2 with
    | error _ =>
      rw [hwrite] at h
      cases h
    | ok next =>
      rw [hwrite] at h
      obtain ⟨_, _, -, hwrote⟩ := exists_wrote hwrite
      exact fun start ↦ (ih h start).trans (hwrote.alike start)

end HostMemory

/-! ## Contents -/

namespace ObjectState

variable {x y : ObjectState} {i : Nat}

/-- Contents that fit their object, with an array where bytes are read from one. -/
structure Intact (x : ObjectState) : Prop extends x.Sized where
  flushed : ∀ i, x.form i = .ok .flushed → x.updates?.isSome

theorem Updated.intact {f : ByteForm} (h : Updated x y i f) (hf : f ≠ .flushed) (hx : x.Intact) : y.Intact where
  size_eq := by rw [h.size_eq, h.object_eq, hx.size_eq]
  masked := h.masked
  flushed j hj := by
    have hlt : j < x.bytes.size := h.size_eq ▸ h.masked.lt_of_form hj (by simp)
    have hne : j ≠ i := by
      rintro rfl
      rw [h.form_self, Except.ok.injEq] at hj
      exact hf hj
    rw [h.form_ne j hlt hne] at hj
    rw [h.updates_eq]
    exact hx.flushed j hj

theorem intact_of_concrete {object : MemoryObject} {bytes : ByteArray} {readOnly : Bool} {owner : Nat}
    (hsize : bytes.size = object.size) : Intact { object, bytes, readOnly, owner } :=
  ⟨⟨hsize, masked_of_none rfl rfl rfl⟩, fun _ h ↦ nomatch h⟩

theorem Intact.of_owner (hx : x.Intact) (n : Nat) : Intact { x with owner := n } :=
  ⟨⟨hx.size_eq, hx.masked.congr rfl rfl rfl rfl⟩, hx.flushed⟩

theorem intact_of_origin {object : MemoryObject} (origin : Origin) :
    Ends (fun _ ↦ True) (origin.make object) Intact := by
  have hzeroed : Ends (fun _ ↦ True) (zeroed object) fun x ↦ x.Intact ∧ x.size = object.size :=
    ends_bind (P := fun _ ↦ True) (ends_demand (fun _ ↦ trivial) fun _ ↦ trivial) fun _ _ ↦
      ends_pure ⟨intact_of_concrete (Bytes.size_zeros _), Bytes.size_zeros _⟩
  cases origin with
  | zeros => exact hzeroed.mono fun _ hx ↦ hx.1
  | known bytes =>
    exact ends_bind (P := fun _ ↦ bytes.size = object.size) (ends_demand (fun _ ↦ trivial) id) fun _ h ↦
      ends_pure (intact_of_concrete h)
  | input array =>
    refine ends_true_iff.2 fun x hx ↦ ?_
    obtain ⟨hflushed, rfl, hsize, hu⟩ := allFlushed_ofArray hx
    exact ⟨⟨hsize, hflushed.masked⟩, fun _ _ ↦ hu ▸ rfl⟩

theorem Intact.ends_write8 (hx : x.Intact) (i : Nat) (e : Expr) :
    Ends (fun _ ↦ True) (x.write8 i e) Intact := by
  refine ends_true_iff.2 fun y hy ↦ ?_
  obtain ⟨f, hupdated, hf⟩ := exists_updated_of_write8 hx.masked hy
  refine hupdated.intact ?_ hx
  obtain rfl | ⟨rfl, -⟩ := hf <;> simp

theorem Intact.ends_writeByteAt (hx : x.Intact) (offset value : Expr) :
    Ends (fun _ ↦ True) (x.writeByteAt offset value) Intact := by
  refine ends_true_iff.2 fun y hy ↦ ?_
  obtain ⟨u, -, hy⟩ := bind_eq_ok.1 hy
  obtain ⟨index, -, hy⟩ := bind_eq_ok.1 hy
  obtain ⟨u', -, hy⟩ := bind_eq_ok.1 hy
  obtain rfl := pure_eq_ok.1 hy
  exact ⟨⟨hx.size_eq, (allFlushed_flushedTo x u').masked⟩, fun _ _ ↦ rfl⟩

theorem Intact.ends_run (hx : x.Intact) (c : Change) : Ends (fun _ ↦ True) (c.run x) Intact := by
  cases c with
  | write8 index value => exact hx.ends_write8 index value
  | writeByteAt offset value => exact hx.ends_writeByteAt offset value
  | write offset value =>
    rw [Change.run, write_eq]
    refine ends_bind (P := fun _ ↦ True) (ends_true_iff.2 fun _ _ ↦ trivial) fun whole _ ↦
      ends_foldlM hx fun i _ x hx ↦ ends_bind (P := fun _ ↦ True) (ends_true_iff.2 fun _ _ ↦ trivial) fun e _ ↦ ?_
    unfold writeAfter
    split
    · exact ends_bind (P := fun _ ↦ True) (ends_true_iff.2 fun _ _ ↦ trivial) fun n _ ↦ hx.ends_write8 n e
    · exact ends_bind (P := fun _ ↦ True) (ends_true_iff.2 fun _ _ ↦ trivial) fun p _ ↦ hx.ends_writeByteAt p e
  | writeBytes offset bytes =>
    refine ends_foldlM hx fun d _ x hx ↦ ends_bind (P := fun _ ↦ True) (ends_true_iff.2 fun _ _ ↦ trivial)
      fun n _ ↦ ends_true_iff.2 fun y hy ↦ ?_
    exact (updated_of_writeByte hx.masked hy).1.intact (by simp) hx
  | clear => exact ends_pure (intact_of_concrete (hx.size_eq ▸ Bytes.size_zeros _))

theorem intact_of_changes {object : MemoryObject} (origin : Origin) (changes : List Change) :
    Ends (fun _ ↦ True) (do changes.foldlM Change.run (← origin.make object)) Intact :=
  ends_bind (intact_of_origin origin) fun _ hx ↦ ends_foldlM hx fun c _ _ hx ↦ hx.ends_run c

/-- From `x` to `y` the bytes at some places were given, and all others are read as before. -/
structure Patched (x y : ObjectState) (l : List (Nat × UInt8)) : Prop where
  intact : y.Intact
  object_eq : y.object = x.object
  readOnly_eq : y.readOnly = x.readOnly
  readByte_of_mem : ∀ d ∈ l, y.readByte d.1 = .ok (.word d.2.toNat 8)
  readByte_eq : ∀ i < x.object.size, i ∉ l.map (·.1) → y.readByte i = x.readByte i

theorem Intact.exists_patched {l : List (Nat × UInt8)} (hx : x.Intact) (hl : ∀ d ∈ l, d.1 < x.object.size)
    (hnodup : (l.map (·.1)).Nodup) :
    ∃ y, l.foldlM (fun c d ↦ c.writeByte d.1 d.2) x = .ok y ∧ x.Patched y l := by
  induction l generalizing x with
  | nil => exact ⟨x, rfl, hx, rfl, rfl, by simp, fun _ _ _ ↦ rfl⟩
  | cons d l ih =>
    rw [List.forall_mem_cons] at hl
    rw [List.map_cons, List.nodup_cons] at hnodup
    obtain ⟨z, hz⟩ : ∃ z, x.writeByte d.1 d.2 = .ok z :=
      ⟨_, dif_pos (show d.1 < x.bytes.size by rw [hx.size_eq]; exact hl.1)⟩
    obtain ⟨hupdated, hbyte⟩ := updated_of_writeByte hx.masked hz
    obtain ⟨y, hy, hpatched⟩ := ih (hupdated.intact (by simp) hx) (by rw [hupdated.object_eq]; exact hl.2) hnodup.2
    have hself : z.readByte d.1 = .ok (.word d.2.toNat 8) := by
      rw [ObjectState.readByte_eq, hupdated.form_self, ok_bind]
      dsimp only
      rw [hbyte]
      rfl
    refine ⟨y, ?_, hpatched.intact, hpatched.object_eq.trans hupdated.object_eq,
      hpatched.readOnly_eq.trans hupdated.readOnly_eq, List.forall_mem_cons.2 ⟨?_, hpatched.readByte_of_mem⟩,
      fun i hi hmem ↦ ?_⟩
    · rw [List.foldlM_cons, hz, ok_bind, hy]
    · rw [hpatched.readByte_eq d.1 (by rw [hupdated.object_eq]; exact hl.1) hnodup.1, hself]
    · rw [List.map_cons, List.mem_cons, not_or] at hmem
      rw [hpatched.readByte_eq i (by rwa [hupdated.object_eq]) hmem.2,
        hupdated.readByte_ne hx.flushed (by rwa [hx.size_eq]) hmem.1]

end ObjectState

/-! ## Memory -/

namespace AddressSpace

variable {m m' : AddressSpace} {x y : ObjectState} {o : MemoryObject} {image : HostMemory}

theorem mem_differences {old new : ByteArray} {d : Nat × UInt8} :
    d ∈ differences old new ↔ d.1 < old.size ∧ new[d.1]? = some d.2 ∧ old[d.1]? ≠ some d.2 := by
  rw [differences, List.mem_filterMap]
  constructor
  · rintro ⟨i, hi, hd⟩
    rw [List.mem_range, Nat.lt_min] at hi
    dsimp only at hd
    rw [getElem?_pos old i hi.1, getElem?_pos new i hi.2] at hd
    split at hd
    · cases hd
    · rename_i hne
      cases hd
      refine ⟨hi.1, getElem?_pos new i hi.2, ?_⟩
      rw [getElem?_pos old i hi.1]
      exact fun h ↦ hne (Option.some.inj h)
  · rintro ⟨hlt, hnew, hold⟩
    have hlt' : d.1 < new.size := (getElem?_eq_some_iff.1 hnew).1
    refine ⟨d.1, List.mem_range.2 (Nat.lt_min.2 ⟨hlt, hlt'⟩), ?_⟩
    dsimp only
    rw [hnew, getElem?_pos old d.1 hlt, if_neg fun h ↦ hold ?_]
    · rfl
    · rw [getElem?_pos old d.1 hlt]
      exact congrArg some h

theorem nodup_differences (old new : ByteArray) : ((differences old new).map (·.1)).Nodup := by
  rw [differences, List.map_filterMap]
  refine List.Nodup.filterMap (fun i j n hi hj ↦ ?_) List.nodup_range
  grind

theorem differences_eq_nil {old new : ByteArray} (hsize : new.size = old.size) :
    differences old new = [] ↔ new = old := by
  constructor
  · refine fun h ↦ ObjectState.bytes_ext fun i ↦ ?_
    rcases Nat.lt_or_ge i old.size with hi | hi
    · by_contra hne
      have hi' : i < new.size := hsize ▸ hi
      have hd : (i, new[i]) ∈ differences old new := mem_differences.2
        ⟨hi, getElem?_pos new i _, fun h ↦ hne (by rw [h, getElem?_pos new i hi'])⟩
      rw [h] at hd
      cases hd
    · rw [getElem?_neg new i (by omega), getElem?_neg old i (by omega)]
  · rintro rfl
    refine List.eq_nil_iff_forall_not_mem.2 fun d hd ↦ ?_
    obtain ⟨-, hnew, hold⟩ := mem_differences.1 hd
    exact hold hnew

/-- The bytes of an object that differ in the image. -/
def changed (image : HostMemory) (x : ObjectState) : List (Nat × UInt8) :=
  (image.region? x.object.address).elim [] (differences x.bytes)

theorem lt_of_mem_changed {d : Nat × UInt8} (h : d ∈ changed image x) : d.1 < x.bytes.size := by
  unfold changed at h
  cases hregion : image.region? x.object.address with
  | none =>
    rw [hregion] at h
    cases h
  | some region =>
    rw [hregion] at h
    exact (mem_differences.1 h).1

theorem nodup_changed (image : HostMemory) (x : ObjectState) : ((changed image x).map (·.1)).Nodup := by
  unfold changed
  cases image.region? x.object.address with
  | none => exact List.nodup_nil
  | some region => exact nodup_differences _ _

theorem changes_eq (image : HostMemory) (l : List ObjectState) :
    changes image l = if ∃ x ∈ l, x.readOnly = true ∧ changed image x ≠ [] then none else
      some ((l.filter (changed image · ≠ [])).map fun x ↦ (x.object, changed image x)) := by
  induction l with
  | nil => simp [changes]
  | cons x l ih =>
    have hskip (h : changed image x = []) : changes image l =
        if ∃ y ∈ x :: l, y.readOnly = true ∧ changed image y ≠ [] then none else
          some (((x :: l).filter (changed image · ≠ [])).map fun y ↦ (y.object, changed image y)) := by
      simp only [ih, List.mem_cons, exists_eq_or_imp, h, ne_eq, not_true_eq_false, and_false, false_or,
        decide_false, List.filter_cons_of_neg, Bool.false_eq_true, not_false_eq_true]
    unfold changes
    split
    · rename_i hregion
      exact hskip (by rw [changed, hregion]; rfl)
    · rename_i region hregion
      have hchanged : changed image x = differences x.bytes region := by
        rw [changed, hregion]
        rfl
      split
      · rename_i hnil
        exact hskip (hchanged.trans hnil)
      · rename_i d hne
        have hne' : changed image x ≠ [] := hchanged.trans_ne fun h ↦ hne h
        by_cases hreadOnly : x.readOnly = true
        · rw [if_pos hreadOnly, if_pos ⟨x, by simp, hreadOnly, hne'⟩]
        · rw [if_neg hreadOnly, ih, ← hchanged]
          simp only [List.mem_cons, exists_eq_or_imp, hreadOnly, false_and, false_or, hne', Bool.false_eq_true,
            List.filter_cons_of_pos, List.map_cons, ne_eq, not_false_eq_true, decide_true]
          split <;> rfl

theorem exists_foldlM_modify {ι : Type} {f : ι → ObjectState → Checked ObjectState}
    {R : ι → ObjectState → ObjectState → Prop} {l : List (MemoryObject × ι)} (h : m.objects.Sorted)
    (hnodup : (l.map (·.1.key)).Nodup) (hl : ∀ q ∈ l, ∃ x, m.objects.get? q.1.key = some x ∧
      ∃ y, f q.2 { x with owner := m.epoch } = .ok y ∧ R q.2 x y) :
    ∃ m', l.foldlM (fun s q ↦ s.modify q.1 (f q.2)) m = .ok m' ∧ m'.objects.Sorted ∧
      (∀ q ∈ l, ∀ x, m.objects.get? q.1.key = some x → ∃ y, m'.objects.get? q.1.key = some y ∧ R q.2 x y) ∧
      ∀ key ∉ l.map (·.1.key), m'.objects.get? key = m.objects.get? key := by
  induction l generalizing m with
  | nil => exact ⟨m, rfl, h, by simp, fun _ _ ↦ rfl⟩
  | cons q l ih =>
    rw [List.forall_mem_cons] at hl
    rw [List.map_cons, List.nodup_cons] at hnodup
    obtain ⟨⟨x, hx, y, hy, hR⟩, hl⟩ := hl
    have hmodify : m.modify q.1 (f q.2) = .ok { m with objects := m.objects.modify q.1.key fun _ ↦ y } := by
      unfold modify
      rw [hx]
      dsimp only
      rw [hy]
      rfl
    have hget (key : ObjectKey) : (m.objects.modify q.1.key fun _ ↦ y).get? key =
        if key = q.1.key then some y else m.objects.get? key := by
      rw [AvlMap.get?_modify h, hx]
      rfl
    have hother {key : ObjectKey} (hkey : key ∈ l.map (·.1.key)) :
        (m.objects.modify q.1.key fun _ ↦ y).get? key = m.objects.get? key := by
      rw [hget, if_neg]
      rintro rfl
      exact hnodup.1 hkey
    obtain ⟨m', hm', hsorted, hchanged, hkept⟩ :=
      ih (m := { m with objects := m.objects.modify q.1.key fun _ ↦ y }) (h.modify _) hnodup.2 fun r hr ↦ by
        obtain ⟨z, hz, hrest⟩ := hl r hr
        exact ⟨z, (hother (List.mem_map_of_mem (f := fun r ↦ r.1.key) hr)).trans hz, hrest⟩
    refine ⟨m', ?_, hsorted, List.forall_mem_cons.2 ⟨fun x' hx' ↦ ?_, fun r hr z hz ↦ ?_⟩, fun key hkey ↦ ?_⟩
    · rw [List.foldlM_cons, hmodify, ok_bind, hm']
    · rw [hx] at hx'
      cases hx'
      exact ⟨y, by rw [hkept _ hnodup.1, hget, if_pos rfl], hR⟩
    · exact hchanged r hr z ((hother (List.mem_map_of_mem (f := fun r ↦ r.1.key) hr)).trans hz)
    · rw [List.map_cons, List.mem_cons, not_or] at hkey
      rw [hkept key hkey.2, hget, if_neg hkey.1]

/-- Objects are found by their keys, and their contents are intact. -/
structure Intact (m : AddressSpace) : Prop extends m.Ordered where
  contents : ∀ x ∈ m.toList, x.Intact

theorem intact_iff :
    m.Intact ↔ m.objects.Sorted ∧ ∀ q ∈ m.entries, q.1 = q.2.object.key ∧ q.2.Intact := by
  constructor
  · exact fun h ↦ ⟨h.sorted, fun q hq ↦ ⟨h.keyed q hq, h.contents _ (mem_toList.2 ⟨q, hq, rfl⟩)⟩⟩
  · refine fun h ↦ ⟨⟨h.1, fun q hq ↦ (h.2 q hq).1⟩, fun x hx ↦ ?_⟩
    obtain ⟨q, hq, rfl⟩ := mem_toList.1 hx
    exact (h.2 q hq).2

theorem Ordered.mem_toList_of_get? {key : ObjectKey} (h : m.Ordered) (hx : m.objects.get? key = some x) :
    x ∈ m.toList ∧ x.object.key = key := by
  have hmem : (key, x) ∈ m.entries := (AvlMap.get?_eq_some h.sorted).1 hx
  exact ⟨mem_toList.2 ⟨_, hmem, rfl⟩, (h.keyed _ hmem).symm⟩

theorem Ordered.nodup_keys (h : m.Ordered) : (m.toList.map (·.object.key)).Nodup := by
  have hkeys : m.toList.map (·.object.key) = m.entries.map (·.1) := by
    rw [toList_eq, List.map_map]
    exact List.map_congr_left fun q hq ↦ (h.keyed q hq).symm
  rw [hkeys]
  refine List.pairwise_map.2 (h.sorted.imp fun {p q} hlt heq ↦ ?_)
  rw [heq, Std.ReflOrd.compare_self] at hlt
  cases hlt

/-! ## Intact memory -/

theorem intact_empty : Intact {} := intact_iff.2 ⟨List.Pairwise.nil, fun _ h ↦ nomatch h⟩

section

variable (hm : m.Intact)
include hm

theorem Intact.fork : m.fork.Intact := ⟨⟨hm.sorted, hm.keyed⟩, hm.contents⟩

theorem Intact.of_bind (hx : x.Intact) (h : m.bind x = .ok m') : m'.Intact := by
  obtain ⟨_, -, h⟩ := bind_eq_ok.1 h
  obtain rfl := pure_eq_ok.1 h
  obtain ⟨hsorted, hentries⟩ := intact_iff.1 hm
  refine intact_iff.2 ⟨hsorted.insert, fun q hq ↦ ?_⟩
  change q ∈ (m.objects.insert x.object.key _).2.toList at hq
  rw [AvlMap.toList_insert hsorted, List.mem_append, List.mem_cons] at hq
  obtain hq | rfl | hq := hq
  · exact hentries q (List.mem_filter.1 hq).1
  · exact ⟨rfl, hx.of_owner m.epoch⟩
  · exact hentries q (List.mem_filter.1 hq).1

theorem Intact.of_unbind (h : m.unbind o = .ok m') : m'.Intact := by
  obtain ⟨_, hsome, h⟩ := bind_eq_ok.1 h
  obtain rfl := pure_eq_ok.1 h
  obtain ⟨x, hx⟩ := Option.isSome_iff_exists.1 (demand_eq_ok.1 hsome)
  obtain ⟨hsorted, hentries⟩ := intact_iff.1 hm
  refine intact_iff.2 ⟨hsorted.erase, fun q hq ↦ ?_⟩
  change q ∈ (m.objects.erase o.key).2.toList at hq
  rw [AvlMap.toList_erase hsorted hx, List.mem_append] at hq
  obtain hq | hq := hq <;> exact hentries q (List.mem_filter.1 hq).1

theorem Intact.of_modify {f : ObjectState → Checked ObjectState}
    (hf : ∀ x, x.Intact → Ends (fun _ ↦ True) (f x) fun y ↦ y.Intact ∧ y.object = x.object)
    (h : m.modify o f = .ok m') : m'.Intact := by
  unfold modify at h
  cases hx : m.objects.get? o.key with
  | none =>
    rw [hx] at h
    cases h
  | some x =>
    rw [hx] at h
    obtain ⟨y, hy, h⟩ := bind_eq_ok.1 h
    obtain rfl := pure_eq_ok.1 h
    obtain ⟨hsorted, hentries⟩ := intact_iff.1 hm
    obtain ⟨hkey, hintact⟩ := hentries (o.key, x) ((AvlMap.get?_eq_some hsorted).1 hx)
    obtain ⟨hy, hobject⟩ := (hf { x with owner := m.epoch } (hintact.of_owner m.epoch)).of_eq hy
    refine intact_iff.2 ⟨hsorted.modify _, fun q hq ↦ ?_⟩
    change q ∈ (m.objects.modify o.key _).toList at hq
    rw [AvlMap.toList_modify hsorted, Entries.replaceAt] at hq
    obtain ⟨r, hr, rfl⟩ := List.mem_map.1 hq
    split
    · rename_i heq
      rw [Std.LawfulEqOrd.eq_of_compare heq]
      exact ⟨hkey.trans (congrArg MemoryObject.key hobject.symm), hy⟩
    · exact hentries r hr

end

/-! ## Copying back -/

theorem region?_foldl_map {l : List ObjectState} (hdistinct : l.Pairwise (·.object.address ≠ ·.object.address))
    (before : HostMemory) (hx : x ∈ l) :
    (l.foldl (fun m z ↦ m.map z.object.address z.bytes) before).region? x.object.address = some x.bytes := by
  -- what stays to be mapped once the region of `x` is there leaves it as it is
  have hrest {l : List ObjectState} (hl : ∀ z ∈ l, x.object.address ≠ z.object.address) (image : HostMemory) :
      (l.foldl (fun m z ↦ m.map z.object.address z.bytes) image).region? x.object.address =
        image.region? x.object.address := by
    induction l generalizing image with
    | nil => rfl
    | cons z l ih =>
      rw [List.forall_mem_cons] at hl
      rw [List.foldl_cons, ih hl.2, HostMemory.region?_map, if_neg hl.1.symm]
  induction l generalizing before with
  | nil => cases hx
  | cons z l ih =>
    rw [List.pairwise_cons] at hdistinct
    rw [List.foldl_cons]
    obtain rfl | hx := List.mem_cons.1 hx
    · rw [hrest hdistinct.1, HostMemory.region?_map, if_pos rfl]
    · exact ih hdistinct.2 _ hx

theorem pairwise_address_ne (hapart : m.toList.Pairwise (·.object.Apart ·.object)) :
    m.toList.Pairwise (·.object.address ≠ ·.object.address) :=
  hapart.imp fun {x y} h heq ↦ by
    simp only [MemoryObject.Apart, MemoryObject.stop] at h
    omega

/-- The image has a region for each object, with as many bytes. -/
def Covered (m : AddressSpace) (image : HostMemory) : Prop :=
  ∀ x ∈ m.toList, ∃ region, image.region? x.object.address = some region ∧ region.size = x.bytes.size

/-- From `m` to `m'` the bytes that differ in the image took the values that they have there, and all others
are read as before. -/
structure CopiedIn (m m' : AddressSpace) (image : HostMemory) : Prop where
  intact : m'.Intact
  objects : ∀ o, (m'.find? o).map (·.object) = (m.find? o).map (·.object)
  contents : ∀ x ∈ m.toList, ∃ y, m'.find? x.object = some y ∧ y.readOnly = x.readOnly ∧
    ∀ i < x.object.size, ∃ b, image.byte? x.object.address i = some b ∧
      y.readByte i = if x.bytes[i]? = some b then x.readByte i else .ok (.word b.toNat 8)

theorem Covered.changed_eq_nil (h : m.Covered image) (hx : x ∈ m.toList) :
    changed image x = [] ↔ image.region? x.object.address = some x.bytes := by
  obtain ⟨region, hregion, hsize⟩ := h x hx
  rw [changed, hregion, Option.elim_some, differences_eq_nil hsize, Option.some.injEq]

theorem Covered.readByte_eq (h : m.Covered image) (hm : m.Intact) (hx : x ∈ m.toList)
    (hpatched : x.Patched y (changed image x)) {i : Nat} (hi : i < x.object.size) :
    ∃ b, image.byte? x.object.address i = some b ∧
      y.readByte i = if x.bytes[i]? = some b then x.readByte i else .ok (.word b.toNat 8) := by
  obtain ⟨region, hregion, hsize⟩ := h x hx
  have hlt : i < x.bytes.size := by rwa [(hm.contents x hx).size_eq]
  have hmem (d : Nat × UInt8) : d ∈ changed image x ↔
      d.1 < x.bytes.size ∧ region[d.1]? = some d.2 ∧ x.bytes[d.1]? ≠ some d.2 := by
    rw [changed, hregion, Option.elim_some, mem_differences]
  have hlt' : i < region.size := hsize ▸ hlt
  have hbyte : region[i]? = some region[i] := getElem?_pos region i hlt'
  refine ⟨region[i], by rw [HostMemory.byte?, hregion, Option.bind_some, hbyte], ?_⟩
  split
  · rename_i hsame
    refine hpatched.readByte_eq i hi fun hi ↦ ?_
    obtain ⟨d, hd, rfl⟩ := List.mem_map.1 hi
    obtain ⟨-, hnew, hold⟩ := (hmem d).1 hd
    exact hold (by rw [hsame, ← hbyte, hnew])
  · rename_i hdiffers
    exact hpatched.readByte_of_mem (i, region[i]) ((hmem _).2 ⟨hlt, hbyte, hdiffers⟩)

theorem Intact.exists_takenOver (hm : m.Intact) (image : HostMemory) :
    ∃ m', ((m.toList.filter (changed image · ≠ [])).map fun x ↦ (x.object, changed image x)).foldlM
        (fun s q ↦ s.modify q.1 fun c ↦ q.2.foldlM (fun c d ↦ c.writeByte d.1 d.2) c) m = .ok m' ∧
      m'.objects.Sorted ∧
      ∀ key, Option.Rel (fun x y ↦ x.Patched y (changed image x)) (m.objects.get? key) (m'.objects.get? key) := by
  have hpatch : ∀ x ∈ m.toList, ∃ y, (changed image x).foldlM (fun c d ↦ c.writeByte d.1 d.2)
      { x with owner := m.epoch } = .ok y ∧ x.Patched y (changed image x) := by
    intro x hx
    have hintact := hm.contents x hx
    obtain ⟨y, hy, hpatched⟩ := ObjectState.Intact.exists_patched (x := { x with owner := m.epoch })
      (l := changed image x) (hintact.of_owner m.epoch)
      (fun d hd ↦ hintact.size_eq ▸ lt_of_mem_changed hd) (nodup_changed image x)
    exact ⟨y, hy, hpatched.intact, hpatched.object_eq, hpatched.readOnly_eq, hpatched.readByte_of_mem,
      hpatched.readByte_eq⟩
  obtain ⟨m', hm', hsorted, hchanged, hkept⟩ := exists_foldlM_modify (m := m)
    (f := fun l x ↦ l.foldlM (fun c d ↦ c.writeByte d.1 d.2) x) (R := fun l x y ↦ x.Patched y l)
    (l := (m.toList.filter (changed image · ≠ [])).map fun x ↦ (x.object, changed image x)) hm.sorted
    (by
      rw [List.map_map]
      exact hm.nodup_keys.sublist (List.filter_sublist.map _))
    (by
      intro q hq
      obtain ⟨x, hx, rfl⟩ := List.mem_map.1 hq
      have hx := (List.mem_filter.1 hx).1
      exact ⟨x, hm.get?_eq hx, hpatch x hx⟩)
  refine ⟨m', hm', hsorted, fun key ↦ ?_⟩
  -- an object either has changes, or its contents stay
  by_cases hkey : key ∈ ((m.toList.filter (changed image · ≠ [])).map fun x ↦
      (x.object, changed image x)).map (·.1.key)
  · obtain ⟨q, hq, rfl⟩ := List.mem_map.1 hkey
    obtain ⟨x, hx, rfl⟩ := List.mem_map.1 hq
    have hget := hm.get?_eq (List.mem_filter.1 hx).1
    obtain ⟨y, hy, hpatched⟩ := hchanged _ hq x hget
    rw [hget, hy]
    exact .some hpatched
  · rw [hkept key hkey]
    cases hget : m.objects.get? key with
    | none => exact .none
    | some x =>
      have hx := hm.mem_toList_of_get? hget
      have hnil : changed image x = [] := by
        by_contra hne
        refine hkey (List.mem_map.2 ⟨(x.object, changed image x), List.mem_map.2
          ⟨x, List.mem_filter.2 ⟨hx.1, by simpa using hne⟩, rfl⟩, hx.2⟩)
      exact .some ⟨hm.contents x hx.1, rfl, rfl, by simp [hnil], fun _ _ _ ↦ rfl⟩

theorem Intact.exists_copiedIn (hm : m.Intact) (himage : m.Covered image)
    (hwritable : ¬∃ x ∈ m.toList, x.readOnly = true ∧ changed image x ≠ []) :
    ∃ m', m.copyIn image = .ok (true, m') ∧ m.CopiedIn m' image := by
  obtain ⟨m', hm', hsorted, hrel⟩ := hm.exists_takenOver image
  have hcontents : ∀ x ∈ m.toList, ∃ y, m'.find? x.object = some y ∧ x.Patched y (changed image x) := by
    intro x hx
    have hself := hrel x.object.key
    rw [hm.get?_eq hx] at hself
    generalize hy : m'.objects.get? x.object.key = found at hself
    cases hself with
    | some hpatched => exact ⟨_, hy, hpatched⟩
  have hback : ∀ q ∈ m'.entries, ∃ x : ObjectState, q.1 = x.object.key ∧ x.Patched q.2 (changed image x) := by
    intro q hq
    have hself := hrel q.1
    rw [(AvlMap.get?_eq_some hsorted).2 hq] at hself
    generalize hx : m.objects.get? q.1 = found at hself
    cases hself with
    | some hpatched => exact ⟨_, (hm.mem_toList_of_get? hx).2.symm, hpatched⟩
  refine ⟨m', ?_, intact_iff.2 ⟨hsorted, fun q hq ↦ ?_⟩, fun o ↦ ?_, fun x hx ↦ ?_⟩
  · rw [copyIn, changes_eq, if_neg hwritable]
    dsimp only
    rw [hm']
    rfl
  · obtain ⟨x, hkey, hpatched⟩ := hback q hq
    exact ⟨hkey.trans (congrArg MemoryObject.key hpatched.object_eq.symm), hpatched.intact⟩
  · rw [find?, find?]
    have hself := hrel o.key
    generalize m.objects.get? o.key = found, m'.objects.get? o.key = found' at hself ⊢
    cases hself with
    | none => rfl
    | some hpatched => exact congrArg some hpatched.object_eq
  · obtain ⟨y, hy, hpatched⟩ := hcontents x hx
    exact ⟨y, hy, hpatched.readOnly_eq, fun i hi ↦ himage.readByte_eq hm hx hpatched hi⟩

theorem Intact.copiedIn (hm : m.Intact) (himage : m.Covered image) (h : m.copyIn image = .ok (true, m')) :
    m.CopiedIn m' image := by
  have hwritable : ¬∃ x ∈ m.toList, x.readOnly = true ∧ changed image x ≠ [] := fun hrefused ↦ by
    rw [copyIn, changes_eq, if_pos hrefused] at h
    cases h
  obtain ⟨m'', hm'', hcopied⟩ := hm.exists_copiedIn himage hwritable
  rw [hm''] at h
  cases h
  exact hcopied

theorem covered_of_writes {before : HostMemory} {writes : List (Nat × ByteArray)}
    (hapart : m.toList.Pairwise (·.object.Apart ·.object)) (hwrites : (m.copyOut before).writes writes = .ok image) :
    m.Covered image := fun _ hx ↦
  (HostMemory.alike_of_writes hwrites).exists_region (region?_foldl_map (pairwise_address_ne hapart) before hx)

/-- Whatever the host writes to the image of a memory comes back at once or not at all. Nothing comes back if an
object that is read-only has another image than its bytes. Otherwise the bytes whose image changed have the values
of the image, and the terms of all others are what they were. -/
theorem copied_back_or_refused {before : HostMemory} {writes : List (Nat × ByteArray)} (hm : m.Intact)
    (hapart : m.toList.Pairwise (·.object.Apart ·.object)) (hwrites : (m.copyOut before).writes writes = .ok image) :
    (∀ x ∈ m.toList, (m.copyOut before).region? x.object.address = some x.bytes) ∧
    ∃ done m', m.copyIn image = .ok (done, m') ∧
      (done = false ↔ ∃ x ∈ m.toList, x.readOnly = true ∧ image.region? x.object.address ≠ some x.bytes) ∧
      (done = false → m' = m) ∧ (done = true → m.CopiedIn m' image) := by
  have himage : m.Covered image := covered_of_writes hapart hwrites
  refine ⟨fun x hx ↦ region?_foldl_map (pairwise_address_ne hapart) before hx, ?_⟩
  by_cases hrefused : ∃ x ∈ m.toList, x.readOnly = true ∧ changed image x ≠ []
  · obtain ⟨x, hx, hreadOnly, hne⟩ := hrefused
    refine ⟨false, m, ?_, ?_, fun _ ↦ rfl, by simp⟩
    · rw [copyIn, changes_eq, if_pos ⟨x, hx, hreadOnly, hne⟩]
      rfl
    · exact iff_of_true rfl ⟨x, hx, hreadOnly, mt (himage.changed_eq_nil hx).2 hne⟩
  · obtain ⟨m', hm', hcopied⟩ := hm.exists_copiedIn himage hrefused
    refine ⟨true, m', hm', ?_, by simp, fun _ ↦ hcopied⟩
    refine iff_of_false (by simp) ?_
    rintro ⟨x, hx, hreadOnly, hne⟩
    exact hrefused ⟨x, hx, hreadOnly, mt (himage.changed_eq_nil hx).1 hne⟩

def maskedBytes : ObjectState :=
  { fourBytesAt 1 4096 with
    concreteMask := some #[true, false, true, true]
    table := some #[none, some (.read (.base (.symbolic "x" 1)) (.const 0 32)), none, none] }

theorem masked_maskedBytes : maskedBytes.Masked where
  concreteMask := by
    rintro m ⟨⟩
    rfl
  flushedMask := nofun
  table := by
    rintro t ⟨⟩
    rfl
  marked i hi := by
    change i < 4 at hi
    obtain rfl | rfl | rfl | rfl : i = 0 ∨ i = 1 ∨ i = 2 ∨ i = 3 := by omega
    · exact ⟨.concrete, rfl, rfl, rfl⟩
    · exact ⟨.symbolic _, rfl, rfl, rfl⟩
    · exact ⟨.concrete, rfl, rfl, rfl⟩
    · exact ⟨.concrete, rfl, rfl, rfl⟩

def frozenBytes : ObjectState := { fourBytesAt 2 4104 with readOnly := true }

def guardedBytes : AddressSpace where
  objects := ⟨.node 2 maskedBytes.object.key maskedBytes .leaf
    (.node 1 frozenBytes.object.key frozenBytes .leaf .leaf), 2⟩

theorem toList_guardedBytes : guardedBytes.toList = [maskedBytes, frozenBytes] := rfl

theorem intact_guardedBytes : guardedBytes.Intact where
  sorted := by
    change List.Pairwise _ [(maskedBytes.object.key, maskedBytes), (frozenBytes.object.key, frozenBytes)]
    simp only [List.pairwise_cons, List.mem_singleton, forall_eq, List.not_mem_nil, false_implies, implies_true,
      List.Pairwise.nil, and_true]
    rfl
  keyed := by
    change ∀ q ∈ [(maskedBytes.object.key, maskedBytes), (frozenBytes.object.key, frozenBytes)], _
    simp
  contents := by
    simp only [toList_guardedBytes, List.forall_mem_cons, List.not_mem_nil, false_implies, implies_true, and_true]
    refine ⟨⟨⟨rfl, masked_maskedBytes⟩, fun i hi ↦ ?_⟩, ObjectState.intact_of_concrete rfl⟩
    have hlt : i < 4 := masked_maskedBytes.lt_of_form hi (by simp)
    obtain rfl | rfl | rfl | rfl : i = 0 ∨ i = 1 ∨ i = 2 ∨ i = 3 := by omega
    all_goals cases hi

theorem apart_guardedBytes : guardedBytes.toList.Pairwise (·.object.Apart ·.object) := by
  simp [toList_guardedBytes, MemoryObject.Apart, MemoryObject.stop, maskedBytes, frozenBytes, fourBytesAt]

/-- One byte is written over the input, or one byte of each object. -/
theorem copied_back_or_refused_guardedBytes :
    (∃ image m' y, (guardedBytes.copyOut {}).writes [(4097, ⟨#[9]⟩)] = .ok image ∧
      guardedBytes.copyIn image = .ok (true, m') ∧ m'.find? maskedBytes.object = some y ∧
      y.readByte 0 = .ok (.word 5 8) ∧ y.readByte 1 = .ok (.word 9 8)) ∧
    ∃ image, (guardedBytes.copyOut {}).writes [(4097, ⟨#[9]⟩), (4107, ⟨#[9]⟩)] = .ok image ∧
      guardedBytes.copyIn image = .ok (false, guardedBytes) := by
  constructor
  · obtain ⟨image, hwrites, hbyte, hbyte', hfrozen⟩ : ∃ image,
        (guardedBytes.copyOut {}).writes [(4097, ⟨#[9]⟩)] = .ok image ∧ image.byte? 4096 0 = some 5 ∧
          image.byte? 4096 1 = some 9 ∧ image.region? 4104 = some frozenBytes.bytes := ⟨_, rfl, rfl, rfl, rfl⟩
    obtain ⟨-, done, m', hm', hrefused, -, hcopied⟩ :=
      copied_back_or_refused intact_guardedBytes apart_guardedBytes hwrites
    obtain rfl : done = true := by
      rw [← Bool.not_eq_false, hrefused]
      rintro ⟨x, hx, hreadOnly, hne⟩
      simp only [toList_guardedBytes, List.mem_cons, List.not_mem_nil, or_false] at hx
      obtain rfl | rfl := hx
      · cases hreadOnly
      · exact hne hfrozen
    obtain ⟨y, hy, -, hbytes⟩ := (hcopied rfl).contents maskedBytes List.mem_cons_self
    refine ⟨image, m', y, hwrites, hm', hy, ?_, ?_⟩
    · obtain ⟨b, hb, hread⟩ := hbytes 0 (by decide)
      cases hbyte.symm.trans hb
      exact hread
    · obtain ⟨b, hb, hread⟩ := hbytes 1 (by decide)
      cases hbyte'.symm.trans hb
      exact hread
  · obtain ⟨image, hwrites, hbyte⟩ : ∃ image,
        (guardedBytes.copyOut {}).writes [(4097, ⟨#[9]⟩), (4107, ⟨#[9]⟩)] = .ok image ∧
          image.byte? 4104 3 = some 9 := ⟨_, rfl, rfl⟩
    obtain ⟨-, done, m', hm', hrefused, hsame, -⟩ :=
      copied_back_or_refused intact_guardedBytes apart_guardedBytes hwrites
    obtain rfl : done = false := by
      refine hrefused.2 ⟨frozenBytes, List.mem_cons_of_mem _ List.mem_cons_self, rfl, fun h ↦ ?_⟩
      rw [HostMemory.byte?, show (4104 : Nat) = frozenBytes.object.address from rfl, h] at hbyte
      cases hbyte
    exact ⟨image, hwrites, hsame rfl ▸ hm'⟩

end AddressSpace

end Symex
