import Mathlib.Logic.ExistsUnique
import Symex.Proofs.Images

namespace Symex

open Bits

def Assignment.Total (a : Assignment) : Prop := ∀ e, (a.eval e).isSome

theorem Assignment.total_iff_free {a : Assignment} : a.Total ↔ a.free := by
  constructor
  · intro h
    apply Classical.byContradiction
    intro hfree
    -- a read past the end of what is known has no value
    have hread := h (.read (.base (.symbolic "" 0)) (.const ((a.get? "").map (·.size) |>.getD 0) 32))
    rw [Option.isSome_iff_exists] at hread
    obtain ⟨v, hv⟩ := hread
    rw [eval_read] at hv
    obtain ⟨n, hn, hv⟩ := hv
    rw [eval_const, Option.some_inj] at hn
    rw [evalRead_base, byte?, ← hn] at hv
    cases hget : a.get? "" with
    | none => simp [NamedArray.byte?, NamedArray.symbolic, hget, hfree] at hv
    | some bytes => simp [NamedArray.byte?, NamedArray.symbolic, hget, hfree] at hv
  · intro h e
    rw [a.eval_eq_val h e]
    rfl

/-! ## Plain arrays of bytes -/

namespace Bytes

/-- The number that `n` bytes from `offset` on stand for, the lowest byte first. -/
def number (m : ByteArray) (offset : Nat) : Nat → Nat
  | 0 => 0
  | n + 1 => number m offset n + (m[offset + n]?.getD 0).toNat * 2 ^ (8 * n)

def put (m : ByteArray) (i : Nat) (b : UInt8) : ByteArray :=
  if h : i < m.size then m.set i b h else m

/-- Replaces the bytes from `offset` on by the low `n` bytes of a number, the lowest first. -/
def putNumber (m : ByteArray) (offset value : Nat) : Nat → ByteArray
  | 0 => m
  | n + 1 => put (putNumber m offset value n) (offset + n) (value / 2 ^ (8 * n)).toUInt8

def putAll (m : ByteArray) (offset : Nat) (bytes : ByteArray) : ByteArray :=
  (indexed bytes).foldl (fun m (i, b) ↦ put m (offset + i) b) m

variable {m : ByteArray}

theorem getElem?_put (m : ByteArray) (i : Nat) (b : UInt8) (j : Nat) :
    (put m i b)[j]? = if i = j ∧ j < m.size then some b else m[j]? := by
  unfold put
  split
  · rename_i h
    rw [getElem?_set]
    grind
  · grind

theorem number_lt (m : ByteArray) (offset n : Nat) : number m offset n < 2 ^ (8 * n) := by
  induction n with
  | zero => exact Nat.one_pos
  | succ n ih =>
    have hb : (m[offset + n]?.getD 0).toNat ≤ 255 := Nat.le_of_lt_succ (UInt8.toNat_lt _)
    have hmul := Nat.mul_le_mul_right (2 ^ (8 * n)) hb
    rw [number, Nat.mul_succ, Nat.pow_add]
    omega

end Bytes

namespace ObjectState

variable {a : Assignment} {S : NamedArray → Prop} {x y : ObjectState} {i : Nat} {e : Expr}

/-! ## Reads -/

theorem Proper.image_getD (ha : a.free) (hx : x.Proper S) (hi : i < x.object.size) :
    ((image a x)[i]?.getD 0).toNat = byteAt a x i := by
  rw [getElem?_image, if_pos hi, Option.getD_some, Nat.toUInt8_eq,
    UInt8.toNat_ofNat_of_lt' (hx.byteAt_lt ha i)]

/-- The masks and the table that say where a byte is. -/
inductive Mask where
  | concrete
  | known
  | flushed

def IsIn (x : ObjectState) (i : Nat) : Mask → Prop
  | .concrete => x.isConcrete i = .ok true
  | .known => ∃ e, x.known? i = .ok (some e)
  | .flushed => x.isFlushed i = .ok true

def maskOf : ByteForm → Mask
  | .concrete => .concrete
  | .symbolic _ => .known
  | .flushed => .flushed

theorem MarkedAs.isIn_iff {f : ByteForm} (h : x.MarkedAs i f) (mask : Mask) :
    x.IsIn i mask ↔ mask = maskOf f := by
  cases mask with
  | concrete => cases f <;> simp [IsIn, h.concrete, ByteForm.isConcrete, maskOf]
  | known => cases f <;> simp [IsIn, h.known, ByteForm.term?, maskOf]
  | flushed => cases f <;> simp [IsIn, h.flushed, ByteForm.isFlushed, maskOf]

theorem Masked.existsUnique_isIn (h : x.Masked) (hi : i < x.bytes.size) : ∃! mask, x.IsIn i mask := by
  obtain ⟨f, hf⟩ := h.marked i hi
  exact ⟨maskOf f, (hf.isIn_iff _).2 rfl, fun mask hmask ↦ (hf.isIn_iff mask).1 hmask⟩

/-- How the byte at `i` is kept: as a known byte, as a term, or by a read of the array. -/
inductive KeptAs (x : ObjectState) (i : Nat) : ByteForm → Prop where
  | concrete (b : UInt8) (hmarks : x.MarkedAs i .concrete) (hbyte : x.bytes[i]? = some b)
    (hread : x.readByte i = .ok (.word b.toNat 8)) : KeptAs x i .concrete
  | symbolic (e : Expr) (hmarks : x.MarkedAs i (.symbolic e)) (hread : x.readByte i = .ok e) :
    KeptAs x i (.symbolic e)
  | flushed (u : Updates) (hmarks : x.MarkedAs i .flushed) (hupdates : x.updates? = some u)
    (hread : x.readByte i = Expr.mkRead u (.word i 32)) : KeptAs x i .flushed

theorem KeptAs.markedAs {f : ByteForm} (h : x.KeptAs i f) : x.MarkedAs i f := by
  cases h <;> assumption

theorem Proper.exists_keptAs (hx : x.Proper S) (hi : i < x.object.size) : ∃ f, x.KeptAs i f := by
  have hlt : i < x.bytes.size := by rwa [hx.size_eq]
  obtain ⟨f, hmarks⟩ := hx.masked.marked i hlt
  have hf := form_of_marked hmarks
  have hread := readByte_eq (x := x) (i := i)
  rw [hf] at hread
  cases f with
  | concrete =>
    have hbyte := getElem?_pos x.bytes i hlt
    rw [hbyte] at hread
    exact ⟨_, .concrete x.bytes[i] hmarks hbyte hread⟩
  | symbolic e => exact ⟨_, .symbolic e hmarks hread⟩
  | flushed =>
    obtain ⟨u, hu⟩ := Option.isSome_iff_exists.1 (hx.flushed i hf)
    rw [hu] at hread
    exact ⟨_, .flushed u hmarks hu hread⟩

theorem Proper.existsUnique_keptAs (hx : x.Proper S) (hi : i < x.object.size) :
    ∃! f, x.KeptAs i f := by
  obtain ⟨f, hf⟩ := hx.exists_keptAs hi
  refine ⟨f, hf, fun g hg ↦ ?_⟩
  exact Except.ok.inj ((form_of_marked hg.markedAs).symm.trans (form_of_marked hf.markedAs))

theorem Proper.exists_readByte (hx : x.Proper S) (hi : i < x.object.size) :
    ∃ e, x.readByte i = .ok e := by
  obtain ⟨f, hf⟩ := hx.exists_keptAs hi
  cases hf with
  | concrete b _ _ hread => exact ⟨_, hread⟩
  | symbolic e _ hread => exact ⟨_, hread⟩
  | flushed u _ _ hread => exact ⟨_, hread.trans (Expr.mkRead_eq_ok.2 ⟨rfl, rfl⟩)⟩

theorem exists_place {offset : Expr} (ho : offset.WellFormed) (i : Nat) :
    ∃ p, place offset i = .ok p := by
  have hconst := Expr.constant_eq_ok.2 ⟨ho.width_range, (rfl : Expr.word i offset.width = _)⟩
  rw [place, hconst, Checked.ok_bind]
  exact ⟨_, Expr.mkBinary_eq_ok.2 ⟨rfl, rfl⟩⟩

theorem exists_index {offset : Expr} (hw : offset.width = 64) :
    ∃ p, Expr.mkZext offset 32 = .ok p := by
  rw [Expr.mkZext_of_lt (by omega)]
  exact ⟨_, Expr.mkExtract_eq_ok.2 ⟨by omega, rfl⟩⟩

variable (hS : ∀ name bytes, S (.constant name bytes))
include hS

theorem Proper.exists_readByteAt {offset : Expr} (hx : x.Proper S) (ho : offset.Over S)
    (hw : offset.width = 64) : ∃ e, x.readByteAt offset = .ok e := by
  obtain ⟨p, hp⟩ := exists_index hw
  obtain ⟨u, hu, -⟩ := hx.exists_flushedUpdates hS
  rw [readByteAt, hp, Checked.ok_bind, hu, Checked.ok_bind]
  exact ⟨_, Expr.mkRead_eq_ok.2 ⟨(Expr.mkZext_over ho hp).2, rfl⟩⟩

theorem Proper.exists_readByteAfter {offset : Expr} (hx : x.Proper S) (ho : offset.Over S)
    (hw : offset.width = 64) (hi : a.val offset + i < x.object.size) :
    ∃ e, x.readByteAfter offset i = .ok e := by
  have hsmall := hx.small
  unfold readByteAfter
  split
  · rename_i base hbase
    rw [Expr.value?_eq_some] at hbase
    rw [hbase, Assignment.val_const] at hi
    have hadd : addChecked base i = .ok (base + i) :=
      addChecked_eq_ok.2 ⟨Nat.lt_of_lt_of_le hi (Nat.le_trans hsmall (by decide)), rfl⟩
    rw [hadd, Checked.ok_bind]
    exact hx.exists_readByte hi
  · obtain ⟨p, hp⟩ := exists_place ho.wellFormed i
    obtain ⟨hpo, hpw⟩ := place_over ho hp
    rw [hp, Checked.ok_bind]
    exact hx.exists_readByteAt hS hpo (hpw.trans hw)

omit hS in
theorem exists_readByteAt_of_concrete (object : MemoryObject) (bytes : ByteArray) {offset : Expr}
    (ho : offset.WellFormed) (hw : offset.width = 64) :
    ∃ e, ({ object, bytes } : ObjectState).readByteAt offset = .ok e ∧ e.WellFormed ∧ e.width = 8 ∧
      ∀ a : Assignment, a.free → a.val offset % 2 ^ 32 < bytes.size →
        a.val e = (bytes[a.val offset % 2 ^ 32]?.getD 0).toNat := by
  obtain ⟨index, hindex⟩ := exists_index hw
  obtain ⟨hio, hiw⟩ := Expr.mkZext_over ho.over hindex
  have hbase : (Updates.base ({ object, bytes } : ObjectState).ownArray).Over fun _ ↦ True := Updates.over_base trivial
  obtain ⟨e, hread⟩ : ∃ e, Expr.mkRead (.base ({ object, bytes } : ObjectState).ownArray) index = .ok e :=
    ⟨_, Expr.mkRead_eq_ok.2 ⟨hiw, rfl⟩⟩
  obtain ⟨heo, hew⟩ := Updates.mkRead_over hbase hio hread
  refine ⟨e, ?_, heo.wellFormed, hew, fun a ha hlt ↦ ?_⟩
  · rw [readByteAt, hindex]
    exact hread
  · rw [Updates.val_mkRead ha hbase.wellFormed hio.wellFormed hread, Expr.val_mkZext ha ho hindex]
    exact Assignment.rd_constant _ hlt

omit hS in
theorem exists_read_of_unknown (object : MemoryObject) (bytes : ByteArray) {offset : Expr}
    (ho : offset.WellFormed) (hw : offset.width = 64) (hunknown : offset.value? = none) :
    ∃ e, ({ object, bytes } : ObjectState).read offset 8 = .ok e ∧
      ∀ a : Assignment, a.free → a.val offset % 2 ^ 32 < bytes.size →
        a.val e = (bytes[a.val offset % 2 ^ 32]?.getD 0).toNat := by
  obtain ⟨p, hp⟩ := exists_place ho 0
  obtain ⟨hpo, hpw⟩ := place_over ho.over hp
  obtain ⟨byte, hbyte, hbwf, hbw, hval⟩ :=
    exists_readByteAt_of_concrete object bytes hpo.wellFormed (hpw.trans hw)
  have hafter : ({ object, bytes } : ObjectState).readByteAfter offset 0 = .ok byte := by
    rw [readByteAfter, hunknown, hp]
    exact hbyte
  have hextract := Expr.mkExtract_eq_ok.2 ⟨(by omega : 0 < 8 ∧ 0 + 8 ≤ byte.width), rfl⟩
  refine ⟨byte.extractCore 0 8, ?_, fun a ha hlt ↦ ?_⟩
  · have hcount : byteCountChecked 8 = .ok 1 := rfl
    simp [read_eq, hcount, List.range_succ, hafter, joinByte, hextract]
  · have hlt8 : a.val byte < 2 ^ 8 := hbw ▸ a.val_lt ha hbwf
    have hplace : a.val p = a.val offset := val_place ha ho (a.val_lt ha ho) hp
    rw [Expr.val_mkExtract ha hbwf hextract, Nat.shiftRight_zero, Nat.mod_eq_of_lt hlt8, hval a ha (by rwa [hplace]),
      hplace]

/-- What the first `n` bytes after `offset` are joined to. -/
structure Joined (S : NamedArray → Prop) (a : Assignment) (m : ByteArray) (offset n : Nat)
    (low : Option Expr) : Prop where
  isSome : low.isSome = decide (0 < n)
  terms : ∀ b, low = some b → b.Over S ∧ b.width = 8 * n
  val : ∀ b, low = some b → a.val b = Bytes.number m offset n

omit hS in
theorem Joined.exists_joinByte {m : ByteArray} {offset n : Nat} {low : Option Expr} (ha : a.free)
    (h : Joined S a m offset n low) (he : e.Over S) (hw : e.width = 8)
    (hv : a.val e = (m[offset + n]?.getD 0).toNat) (hn : n < 8) :
    ∃ low', joinByte low e = .ok low' ∧ Joined S a m offset (n + 1) low' := by
  cases low with
  | none =>
    obtain rfl : n = 0 := by simpa using h.isSome
    refine ⟨some e, rfl, rfl, ?_, ?_⟩
    · rintro b ⟨⟩
      exact ⟨he, hw⟩
    · rintro b ⟨⟩
      simpa [Bytes.number] using hv
  | some b =>
    obtain ⟨hb, hbw⟩ := h.terms b rfl
    have hcat := Expr.mkConcat_eq_ok.2 ⟨(by omega : e.width + b.width ≤ 64), rfl⟩
    obtain ⟨hjo, hjw⟩ := Expr.mkConcat_over he hb hcat
    refine ⟨some (Expr.concatCore e b), ?_, rfl, ?_, ?_⟩
    · rw [joinByte, hcat]
      rfl
    · rintro c ⟨⟩
      exact ⟨hjo, by omega⟩
    · rintro c ⟨⟩
      have hlt : Bytes.number m offset n < 2 ^ (8 * n) := Bytes.number_lt m offset n
      rw [Expr.val_mkConcat ha he.wellFormed hb.wellFormed hcat, h.val b rfl, hv, hbw,
        ← Nat.shiftLeft_add_eq_or_of_lt hlt, Nat.shiftLeft_eq, Bytes.number, Nat.add_comm]

theorem Proper.exists_joined {offset : Expr} {n : Nat} (ha : a.free) (hx : x.Proper S)
    (ho : offset.Over S) (hw : offset.width = 64) (hn : n ≤ 8)
    (hin : a.val offset + n ≤ x.object.size) :
    ∃ low, (List.range n).foldlM (fun low i ↦ do joinByte low (← x.readByteAfter offset i)) none =
      .ok low ∧ Joined S a (image a x) (a.val offset) n low := by
  induction n with
  | zero => exact ⟨none, rfl, rfl, by simp, by simp⟩
  | succ n ih =>
    obtain ⟨low, hlow, hjoined⟩ := ih (by omega) (by omega)
    have hi : a.val offset + n < x.object.size := by omega
    obtain ⟨byte, hbyte⟩ := hx.exists_readByteAfter hS ho hw hi
    obtain ⟨hbo, hbw⟩ := hx.readByteAfter_over hS ho hbyte
    have hbv := hx.val_readByteAfter hS ha ho hw hi hbyte
    rw [← hx.image_getD ha hi] at hbv
    obtain ⟨low', hlow', hjoined'⟩ := hjoined.exists_joinByte ha hbo hbw hbv (by omega)
    refine ⟨low', ?_, hjoined'⟩
    rw [List.range_succ, List.foldlM_append, hlow]
    simp [hbyte, hlow']

theorem Proper.exists_read {offset : Expr} {w : Nat} (ha : a.free) (hx : x.Proper S)
    (ho : offset.Over S) (how : offset.width = 64) (hw : 0 < w ∧ w ≤ 64)
    (hin : a.val offset + byteCount w ≤ x.object.size) :
    ∃ e, x.read offset w = .ok e ∧ e.width = w ∧
      a.eval e = some (Bytes.number (image a x) (a.val offset) (byteCount w) % 2 ^ w) := by
  have hcount : byteCount w ≤ 8 ∧ 0 < byteCount w ∧ w ≤ 8 * byteCount w := by
    unfold byteCount
    omega
  have hcc : byteCountChecked w = .ok (byteCount w) := by
    rw [byteCountChecked, demand_of (show w + 7 < pow2 32 by simp only [pow2, Nat.pow_eq]; omega)]
    rfl
  obtain ⟨low, hlow, hjoined⟩ := hx.exists_joined hS ha ho how hcount.1 hin
  obtain ⟨b, rfl⟩ : ∃ b, low = some b := by
    rw [← Option.isSome_iff_exists, hjoined.isSome, decide_eq_true hcount.2.1]
  obtain ⟨hb, hbw⟩ := hjoined.terms b rfl
  have hext := Expr.mkExtract_eq_ok.2 ⟨⟨hw.1, (by omega : 0 + w ≤ b.width)⟩, rfl⟩
  refine ⟨Expr.extractCore b 0 w, ?_, (Expr.mkExtract_over hb hext).2, ?_⟩
  · rw [read_eq, demand_of (show w ≤ maxWidth from hw.2), Checked.ok_bind, hcc, Checked.ok_bind, hlow,
      Checked.ok_bind]
    exact hext
  · rw [a.eval_eq_val ha, Expr.val_mkExtract ha hb.wellFormed hext, Nat.shiftRight_zero,
      hjoined.val b rfl]

/-! ## Writes -/

omit hS in
theorem Wrote.image_eq (h : Wrote a x y i e) :
    image a y = Bytes.put (image a x) i (a.val e).toUInt8 := by
  apply bytes_ext
  intro j
  rw [Bytes.getElem?_put, getElem?_image, getElem?_image, size_image, h.object_eq]
  by_cases hj : j < x.object.size
  · rw [if_pos hj, if_pos hj, h.byteAt_eq j hj]
    grind
  · grind

/-- The contents `y` are those of `x` with the bytes `m`. -/
structure Became (S : NamedArray → Prop) (a : Assignment) (x y : ObjectState) (m : ByteArray) :
    Prop where
  proper : y.Proper S
  object_eq : y.object = x.object
  image_eq : image a y = m

omit hS in
theorem Became.trans {z : ObjectState} {m m' : ByteArray} (h : Became S a x y m)
    (h' : Became S a y z m') : Became S a x z m' :=
  ⟨h'.proper, h'.object_eq.trans h.object_eq, h'.image_eq⟩

omit hS in
theorem Proper.exists_write8 (ha : a.free) (hx : x.Proper S) (he : e.Over S) (hw : e.width = 8)
    (hi : i < x.object.size) : ∃ y, x.write8 i e = .ok y ∧
      Became S a x y (Bytes.put (image a x) i (a.val e).toUInt8) := by
  have hlt : i < x.bytes.size := by rwa [hx.size_eq]
  obtain ⟨y, hy⟩ := ObjectState.exists_write8 hlt e
  obtain ⟨hproper, hwrote⟩ := hx.write8 he hw hy
  exact ⟨y, hy, hproper, (hwrote ha).object_eq, (hwrote ha).image_eq⟩

theorem Proper.exists_writeByteAt {offset : Expr} (ha : a.free) (hx : x.Proper S)
    (ho : offset.Over S) (how : offset.width = 64) (he : e.Over S) (hw : e.width = 8)
    (hi : a.val offset < x.object.size) : ∃ y, x.writeByteAt offset e = .ok y ∧
      Became S a x y (Bytes.put (image a x) (a.val offset) (a.val e).toUInt8) := by
  obtain ⟨u, hu, -⟩ := hx.exists_flushedUpdates hS
  obtain ⟨p, hp⟩ := exists_index how
  have hext := Updates.extend_eq_ok.2 ⟨⟨(Expr.mkZext_over ho hp).2, hw⟩, (rfl : Updates.write p e u = _)⟩
  obtain ⟨y, hy⟩ : ∃ y, x.writeByteAt offset e = .ok y := by
    rw [ObjectState.writeByteAt, hu, Checked.ok_bind, hp, Checked.ok_bind, hext]
    exact ⟨_, rfl⟩
  obtain ⟨hproper, hwrote⟩ := hx.writeByteAt hS ho he hy
  exact ⟨y, hy, hproper, (hwrote ha hi).object_eq, (hwrote ha hi).image_eq⟩

theorem Proper.exists_writeAfter {offset : Expr} (ha : a.free) (hx : x.Proper S)
    (ho : offset.Over S) (how : offset.width = 64) (he : e.Over S) (hw : e.width = 8)
    (hi : a.val offset + i < x.object.size) : ∃ y, x.writeAfter offset i e = .ok y ∧
      Became S a x y (Bytes.put (image a x) (a.val offset + i) (a.val e).toUInt8) := by
  have hsmall := hx.small
  unfold writeAfter
  split
  · rename_i base hbase
    rw [Expr.value?_eq_some] at hbase
    rw [hbase, Assignment.val_const] at hi ⊢
    have hadd : addChecked base i = .ok (base + i) :=
      addChecked_eq_ok.2 ⟨Nat.lt_of_lt_of_le hi (Nat.le_trans hsmall (by decide)), rfl⟩
    rw [hadd, Checked.ok_bind]
    exact hx.exists_write8 ha he hw hi
  · obtain ⟨p, hp⟩ := exists_place ho.wellFormed i
    obtain ⟨hpo, hpw⟩ := place_over ho hp
    have hval : a.val p = a.val offset + i := val_place ha ho.wellFormed (by rw [how]; omega) hp
    rw [hp, Checked.ok_bind, ← hval]
    exact hx.exists_writeByteAt hS ha hpo (hpw.trans how) he hw (by rwa [hval])

omit hS in
theorem exists_wholeBytes {value : Expr} (ha : a.free) (hv : value.Over S) :
    ∃ whole, wholeBytes value = .ok whole ∧ whole.Over S ∧
      whole.width = 8 * byteCount value.width ∧ a.val whole = a.val value := by
  have hr := hv.wellFormed.width_range
  unfold wholeBytes byteCount
  split
  · exact ⟨value, rfl, hv, by omega, rfl⟩
  · have hwf : (Expr.zext value ((value.width + 7) / 8 * 8)).WellFormed := by
      simp only [Expr.WellFormed]
      exact ⟨hv.wellFormed, by omega, by rw [maxWidth_eq]; omega⟩
    obtain ⟨whole, hwhole⟩ := Expr.exists_mkZext hwf
    obtain ⟨hwo, hww⟩ := Expr.mkZext_over hv hwhole
    refine ⟨whole, hwhole, hwo, by omega, ?_⟩
    rw [Expr.val_mkZext ha hv.wellFormed hwhole, Nat.mod_eq_of_lt]
    exact Nat.lt_of_lt_of_le (a.val_lt ha hv.wellFormed) (Nat.pow_le_pow_right (by decide) (by omega))

theorem Proper.exists_writeBytes {offset whole : Expr} {n : Nat} (ha : a.free) (hx : x.Proper S)
    (ho : offset.Over S) (how : offset.width = 64) (hwhole : whole.Over S)
    (hn : 8 * n ≤ whole.width) (hin : a.val offset + n ≤ x.object.size) :
    ∃ y, (List.range n).foldlM (fun x i ↦ do
        x.writeAfter offset i (← Expr.mkExtract whole (i * 8) 8)) x = .ok y ∧
      Became S a x y (Bytes.putNumber (image a x) (a.val offset) (a.val whole) n) := by
  induction n with
  | zero => exact ⟨x, rfl, hx, rfl, rfl⟩
  | succ n ih =>
    obtain ⟨y, hy, hbecame⟩ := ih (by omega) (by omega)
    have hbyte := Expr.mkExtract_eq_ok.2 ⟨⟨(by decide : 0 < 8), (by omega : n * 8 + 8 ≤ whole.width)⟩, rfl⟩
    obtain ⟨hbo, hbw⟩ := Expr.mkExtract_over hwhole hbyte
    have hi : a.val offset + n < y.object.size := by
      rw [hbecame.object_eq]
      omega
    obtain ⟨z, hz, hbecame'⟩ := hbecame.proper.exists_writeAfter hS ha ho how hbo hbw hi
    refine ⟨z, ?_, hbecame.trans ⟨hbecame'.proper, hbecame'.object_eq, ?_⟩⟩
    · rw [List.range_succ, List.foldlM_append, hy]
      simp only [List.foldlM_cons, List.foldlM_nil, Checked.ok_bind, hbyte, hz, bind_pure]
    · rw [hbecame'.image_eq, hbecame.image_eq, Expr.val_mkExtract ha hwhole.wellFormed hbyte,
        Nat.shiftRight_eq_div_pow, Nat.mul_comm n 8, Bytes.putNumber, Nat.toUInt8_eq,
        UInt8.ofNat_mod_size, Nat.toUInt8_eq]

theorem Proper.exists_write {offset value : Expr} (ha : a.free) (hx : x.Proper S)
    (ho : offset.Over S) (how : offset.width = 64) (hv : value.Over S)
    (hin : a.val offset + byteCount value.width ≤ x.object.size) :
    ∃ y, x.write offset value = .ok y ∧
      Became S a x y
        (Bytes.putNumber (image a x) (a.val offset) (a.val value) (byteCount value.width)) := by
  obtain ⟨whole, hwhole, hwo, hww, hwv⟩ := exists_wholeBytes ha hv
  obtain ⟨y, hy, hbecame⟩ := hx.exists_writeBytes hS ha ho how hwo (Nat.le_of_eq hww.symm) hin
  refine ⟨y, ?_, hwv ▸ hbecame⟩
  rw [write_eq, hwhole, Checked.ok_bind]
  exact hy

omit hS in
theorem Proper.exists_putAll {offset : Nat} {l : List (Nat × UInt8)} (ha : a.free) (hx : x.Proper S)
    (hin : ∀ p ∈ l, offset + p.1 < x.object.size) :
    ∃ y, l.foldlM (fun x (i, b) ↦ do x.writeByte (← addChecked offset i) b) x = .ok y ∧
      Became S a x y (l.foldl (fun m (i, b) ↦ Bytes.put m (offset + i) b) (image a x)) := by
  induction l generalizing x with
  | nil => exact ⟨x, rfl, hx, rfl, rfl⟩
  | cons p l ih =>
    obtain ⟨i, b⟩ := p
    rw [List.forall_mem_cons] at hin
    have hsmall := hx.small
    have hadd : addChecked offset i = .ok (offset + i) :=
      addChecked_eq_ok.2 ⟨Nat.lt_of_lt_of_le hin.1 (Nat.le_trans hsmall (by decide)), rfl⟩
    have hb : (Expr.const b.toNat 8).Over S := by
      have hlt := b.toNat_lt
      exact ⟨by simp only [Expr.WellFormed, maxWidth_eq]; omega, Expr.readsIn_const ..⟩
    obtain ⟨y, hy, hbecame⟩ := hx.exists_write8 ha hb rfl hin.1
    have hbyte : (a.val (.const b.toNat 8)).toUInt8 = b := by
      rw [Assignment.val_const, Nat.toUInt8_eq, UInt8.ofNat_toNat]
    have hy' : x.writeByte (offset + i) b = .ok y := by
      simpa [ObjectState.write8, Expr.value?] using hy
    obtain ⟨z, hz, hbecame'⟩ := ih hbecame.proper (by rw [hbecame.object_eq]; exact hin.2)
    refine ⟨z, ?_, ?_⟩
    · rw [List.foldlM_cons]
      simp only [hadd, Checked.ok_bind, hy']
      exact hz
    · rw [hbecame.image_eq, hbyte] at hbecame'
      exact hbecame.trans hbecame'

/-! ## Sequences of changes -/

/-- A change of contents. -/
inductive Change where
  | write8 (index : Nat) (value : Expr)
  | writeByteAt (offset value : Expr)
  | write (offset value : Expr)
  | writeBytes (offset : Nat) (bytes : ByteArray)
  | clear

namespace Change

def run (x : ObjectState) : Change → Checked ObjectState
  | write8 index value => x.write8 index value
  | writeByteAt offset value => x.writeByteAt offset value
  | write offset value => x.write offset value
  | writeBytes offset bytes => x.writeBytes offset bytes
  | clear => return x.clear

/-- Makes a change of a plain array, with all terms evaluated. -/
def plain (a : Assignment) (m : ByteArray) : Change → ByteArray
  | write8 index value => Bytes.put m index (a.val value).toUInt8
  | writeByteAt offset value => Bytes.put m (a.val offset) (a.val value).toUInt8
  | write offset value => Bytes.putNumber m (a.val offset) (a.val value) (byteCount value.width)
  | writeBytes offset bytes => Bytes.putAll m offset bytes
  | clear => Bytes.zeros m.size

/-- Terms are well-formed, offsets have 64 bits and single bytes have 8. -/
def WellFormed : Change → Prop
  | write8 _ value => value.WellFormed ∧ value.width = 8
  | writeByteAt offset value =>
    (offset.WellFormed ∧ offset.width = 64) ∧ value.WellFormed ∧ value.width = 8
  | write offset value => (offset.WellFormed ∧ offset.width = 64) ∧ value.WellFormed
  | writeBytes _ _ | clear => True

/-- All bytes that are touched are among the first `size` ones. -/
def Inside (a : Assignment) (size : Nat) : Change → Prop
  | write8 index _ => index < size
  | writeByteAt offset _ => a.val offset < size
  | write offset value => a.val offset + byteCount value.width ≤ size
  | writeBytes offset bytes => offset + bytes.size ≤ size
  | clear => True

end Change

/-- Where contents come from. -/
inductive Origin where
  | zeros
  | known (bytes : ByteArray)
  | input (array : NamedArray)

namespace Origin

def make (object : MemoryObject) : Origin → Checked ObjectState
  | zeros => zeroed object
  | known bytes => withBytes object bytes
  | input array => ofArray object array

/-- The plain array of `size` bytes to begin with. -/
def plain (a : Assignment) (size : Nat) : Origin → ByteArray
  | zeros => Bytes.zeros size
  | known bytes => bytes
  | input array => ⟨Array.ofFn fun i : Fin size ↦ (a.byte? array i).getD 0⟩

/-- Bytes that are given are as many as the object has. -/
def Fits (size : Nat) : Origin → Prop
  | known bytes => bytes.size = size
  | zeros | input _ => True

end Origin

/-- Reads of `x` that lie inside give what is in the plain array `m`. -/
structure Agrees (a : Assignment) (x : ObjectState) (m : ByteArray) : Prop where
  size_eq : m.size = x.object.size
  read : ∀ offset w, offset.WellFormed → offset.width = 64 → 0 < w ∧ w ≤ 64 →
    a.val offset + byteCount w ≤ m.size → ∃ e, x.read offset w = .ok e ∧ e.width = w ∧
      a.eval e = some (Bytes.number m (a.val offset) (byteCount w) % 2 ^ w)
  readByte : ∀ (i : Nat) (h : i < m.size), ∃ e, x.readByte i = .ok e ∧ e.width = 8 ∧
    a.eval e = some m[i].toNat
  readByteAt : ∀ offset, offset.WellFormed → offset.width = 64 → ∀ h : a.val offset < m.size,
    ∃ e, x.readByteAt offset = .ok e ∧ e.width = 8 ∧ a.eval e = some m[a.val offset].toNat

omit hS

/-- All arrays. -/
abbrev Anything : NamedArray → Prop := fun _ ↦ True

theorem Proper.agrees (ha : a.free) (hx : x.Proper Anything) : x.Agrees a (image a x) where
  size_eq := size_image a x
  read offset w ho how hw hin := by
    rw [size_image] at hin
    exact hx.exists_read (fun _ _ ↦ trivial) ha ho.over how hw hin
  readByte i hi := by
    have hbyte := hx.image_getD ha (size_image a x ▸ hi)
    rw [getElem?_pos (image a x) i hi, Option.getD_some] at hbyte
    rw [size_image] at hi
    obtain ⟨e, he⟩ := hx.exists_readByte hi
    refine ⟨e, he, (hx.readByte_over he).2, ?_⟩
    rw [a.eval_eq_val ha, hx.val_readByte ha hi he, hbyte]
  readByteAt offset ho how hi := by
    have hbyte := hx.image_getD ha (size_image a x ▸ hi)
    rw [getElem?_pos (image a x) (a.val offset) hi, Option.getD_some] at hbyte
    rw [size_image] at hi
    have hS : ∀ name bytes, Anything (.constant name bytes) := fun _ _ ↦ trivial
    obtain ⟨e, he⟩ := hx.exists_readByteAt hS ho.over how
    refine ⟨e, he, (hx.readByteAt_over hS ho.over he).2, ?_⟩
    rw [a.eval_eq_val ha, hx.val_readByteAt hS ha ho.over hi he, hbyte]

theorem Proper.exists_run {c : Change} (ha : a.free) (hx : x.Proper Anything) (hc : c.WellFormed)
    (hin : c.Inside a x.object.size) :
    ∃ y, c.run x = .ok y ∧ Became Anything a x y (c.plain a (image a x)) := by
  have hS : ∀ name bytes, Anything (.constant name bytes) := fun _ _ ↦ trivial
  cases c with
  | write8 index value => exact hx.exists_write8 ha hc.1.over hc.2 hin
  | writeByteAt offset value =>
    obtain ⟨ho, hv⟩ := hc
    exact hx.exists_writeByteAt hS ha ho.1.over ho.2 hv.1.over hv.2 hin
  | write offset value =>
    obtain ⟨ho, hv⟩ := hc
    exact hx.exists_write hS ha ho.1.over ho.2 hv.over hin
  | writeBytes offset bytes =>
    refine hx.exists_putAll ha fun p hp ↦ ?_
    obtain ⟨i, hi, rfl⟩ := List.mem_map.1 hp
    exact Nat.lt_of_lt_of_le (Nat.add_lt_add_left (List.mem_range.1 hi) offset) hin
  | clear =>
    have hsize : (Bytes.zeros x.size).size = x.object.size := (Bytes.size_zeros _).trans hx.size_eq
    refine ⟨x.clear, rfl, proper_of_concrete hsize hx.small, rfl, ?_⟩
    rw [Change.plain, size_image, ← hx.size_eq]
    exact image_of_concrete hsize

theorem Proper.exists_foldlM_run {changes : List Change} (ha : a.free) (hx : x.Proper Anything)
    (hwf : ∀ c ∈ changes, c.WellFormed) (hin : ∀ c ∈ changes, c.Inside a x.object.size) :
    ∃ y, changes.foldlM Change.run x = .ok y ∧
      Became Anything a x y (changes.foldl (Change.plain a) (image a x)) := by
  induction changes generalizing x with
  | nil => exact ⟨x, rfl, hx, rfl, rfl⟩
  | cons c changes ih =>
    rw [List.forall_mem_cons] at hwf hin
    obtain ⟨y, hy, hbecame⟩ := hx.exists_run ha hwf.1 hin.1
    obtain ⟨z, hz, hbecame'⟩ := ih hbecame.proper hwf.2 (by rw [hbecame.object_eq]; exact hin.2)
    refine ⟨z, ?_, ?_⟩
    · rw [List.foldlM_cons, hy, Checked.ok_bind]
      exact hz
    · rw [hbecame.image_eq] at hbecame'
      exact hbecame.trans hbecame'

theorem Origin.exists_make {object : MemoryObject} {origin : Origin}
    (hsmall : object.size ≤ 2 ^ 32) (hfits : origin.Fits object.size) :
    ∃ x, origin.make object = .ok x ∧ x.Proper Anything ∧ x.object = object ∧
      image a x = origin.plain a object.size := by
  have hmax : object.size ≤ maxBytes := Nat.le_trans hsmall (by decide)
  have hzeroed := zeroed_eq hmax
  cases origin with
  | zeros =>
    exact ⟨_, hzeroed, zeroed_proper hsmall hzeroed, rfl, image_of_concrete (Bytes.size_zeros _)⟩
  | known bytes =>
    refine ⟨{ object, bytes }, ?_, proper_of_concrete hfits hsmall, rfl, image_of_concrete hfits⟩
    rw [make, withBytes, demand_of (show bytes.size = object.size from hfits)]
    rfl
  | input array =>
    have hmake : ∃ x, ofArray object array = .ok x ∧ x.object = object := by
      rw [ofArray, hzeroed]
      exact ⟨_, rfl, rfl⟩
    obtain ⟨x, hx, hobject⟩ := hmake
    refine ⟨x, hx, ofArray_proper trivial hsmall hx, hobject, bytes_ext fun i ↦ ?_⟩
    rw [getElem?_image, plain, Bytes.getElem?_eq_data, Array.getElem?_ofFn, hobject]
    by_cases hi : i < object.size
    · rw [if_pos hi, dif_pos hi, byteAt_ofArray hx hi, Nat.toUInt8_eq, UInt8.ofNat_toNat]
    · rw [if_neg hi, dif_neg hi]

/-- Contents behave like an array of bytes: after any changes that stay inside the object, reads give
what the same changes leave in a plain array, and every byte is in exactly one of the masks and kept in the
way that the mask says. -/
theorem exists_agrees_of_changes (object : MemoryObject) (hsmall : object.size < 2 ^ 32)
    (origin : Origin) (hfits : origin.Fits object.size) (a : Assignment) (ha : a.Total)
    (changes : List Change) (hwf : ∀ c ∈ changes, c.WellFormed)
    (hin : ∀ c ∈ changes, c.Inside a object.size) :
    ∃ x, (do changes.foldlM Change.run (← origin.make object)) = .ok x ∧ x.object = object ∧
      x.Agrees a (changes.foldl (Change.plain a) (origin.plain a object.size)) ∧
      ∀ i < object.size, (∃! mask, x.IsIn i mask) ∧ ∃! f, x.KeptAs i f := by
  have hfree := Assignment.total_iff_free.1 ha
  obtain ⟨x₀, hx₀, hproper, rfl, himage⟩ := origin.exists_make (a := a) (Nat.le_of_lt hsmall) hfits
  obtain ⟨x, hx, hbecame⟩ := hproper.exists_foldlM_run hfree hwf hin
  refine ⟨x, ?_, hbecame.object_eq, ?_, fun i hi ↦ ?_⟩
  · rw [hx₀]
    exact hx
  · rw [← himage, ← hbecame.image_eq]
    exact hbecame.proper.agrees hfree
  · rw [← hbecame.object_eq] at hi
    have hlt : i < x.bytes.size := by rwa [hbecame.proper.size_eq]
    exact ⟨hbecame.proper.masked.existsUnique_isIn hlt, hbecame.proper.existsUnique_keptAs hi⟩

/-- A byte at an unknown offset of an input, then two bytes at a known one. -/
theorem exists_agrees_of_changes_four_bytes :
    let offset : Expr := .zext (.read (.base (.symbolic "x" 4)) (.const 1 32)) 64
    let changes : List Change :=
      [.writeByteAt offset (.const 7 8), .write (.const 2 64) (.const 0x102 16)]
    ∃ x e, (do changes.foldlM Change.run (← ofArray ⟨0, 4096, 4, "x", false, false, false, .unknown⟩
        (.symbolic "x" 4))) = .ok x ∧
      x.read (.const 0 64) 32 = .ok e ∧ (Assignment.mk true {}).eval e = some 0x01020007 := by
  intro offset changes
  obtain ⟨x, hx, -, hagrees, -⟩ := exists_agrees_of_changes
    ⟨0, 4096, 4, "x", false, false, false, .unknown⟩ (by decide) (.input (.symbolic "x" 4)) trivial
    ⟨true, {}⟩ (Assignment.total_iff_free.2 rfl) changes
    (by simp [changes, Change.WellFormed, Expr.WellFormed, Updates.WellFormed, offset])
    (by
      simp only [changes, List.forall_mem_cons, Change.Inside]
      exact ⟨by decide, by decide, by simp⟩)
  obtain ⟨e, he, -, hv⟩ := hagrees.read (.const 0 64) 32 (by simp [Expr.WellFormed]) rfl (by decide)
    (by decide)
  exact ⟨x, e, hx, he, hv.trans (by decide)⟩

end ObjectState

end Symex
