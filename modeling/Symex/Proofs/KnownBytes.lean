import Symex.Proofs.ByteArrays
import Symex.Proofs.Calls.Entering

namespace Symex

open Bits Checked

namespace Bytes

variable {m : ByteArray}

theorem number_of_getElem? {offset value n : Nat}
    (h : ∀ i < n, m[offset + i]? = some (value / 2 ^ (8 * i)).toUInt8) :
    number m offset n = value % 2 ^ (8 * n) := by
  induction n with
  | zero => rw [number, Nat.mul_zero, Nat.pow_zero, Nat.mod_one]
  | succ n ih =>
    have hlow := ih fun i hi ↦ h i (by omega)
    have hbyte : ((value / 2 ^ (8 * n)).toUInt8).toNat = value / 2 ^ (8 * n) % 2 ^ 8 := by
      rw [Nat.toUInt8_eq, UInt8.toNat_ofNat']
    rw [number, hlow, h n (Nat.lt_succ_self n), Option.getD_some, hbyte, Nat.mul_succ, Nat.pow_add, Nat.mod_mul,
      Nat.mul_comm (2 ^ (8 * n))]

end Bytes

/-! ## Operations on constants -/

namespace Expr

variable {v w o k : Nat}

theorem extractCore_word (ho : o + k ≤ w) : extractCore (word v w) o k = word (v >>> o) k := by
  have htrunc : trunc k (trunc w v >>> o) = trunc k (v >>> o) := by
    rw [trunc_eq, trunc_eq, trunc_eq, Nat.shiftRight_eq_div_pow, Nat.shiftRight_eq_div_pow]
    apply Nat.eq_of_testBit_eq
    intro i
    rw [Nat.testBit_mod_two_pow, Nat.testBit_mod_two_pow, Nat.testBit_div_two_pow, Nat.testBit_div_two_pow,
      Nat.testBit_mod_two_pow]
    by_cases hi : i < k
    · have hlt : i + o < w := by omega
      simp [hi, hlt]
    · simp [hi]
  unfold extractCore
  split
  · rename_i h
    obtain ⟨rfl, rfl⟩ := h
    rw [Nat.shiftRight_zero]
  · rw [word]
    dsimp only
    rw [word, word, htrunc]

theorem concatCore_word {v' w' : Nat} :
    concatCore (word v w) (word v' w') = word (trunc w v * 2 ^ w' + trunc w' v') (w + w') := by
  have hlt : trunc w' v' < 2 ^ w' := trunc_lt w' v'
  rw [← Nat.shiftLeft_eq, Nat.shiftLeft_add_eq_or_of_lt hlt]
  rfl

theorem word_of_lt (h : v < 2 ^ w) : word v w = .const v w := by
  rw [word, trunc_of_lt h]

end Expr

namespace ObjectState

variable {x y z : ObjectState} {i base : Nat} {b : UInt8}

/-! ## Contents that can be -/

/-- The contents that an object has at some time. -/
inductive Reachable : ObjectState → Prop where
  | make {object : MemoryObject} {origin : Origin} {x : ObjectState} (h : origin.make object = .ok x) : Reachable x
  | change {x y : ObjectState} {c : Change} (hx : Reachable x) (h : c.run x = .ok y) : Reachable y
  | mark {x : ObjectState} (hx : Reachable x) (readOnly : Bool) (owner : Nat) :
    Reachable { x with readOnly, owner }

theorem Sized.of_updated {f : ByteForm} (hx : x.Sized) (h : x.Updated y i f) : y.Sized where
  size_eq := by rw [h.size_eq, h.object_eq, hx.size_eq]
  masked := h.masked

theorem Sized.write8 {e : Expr} (hx : x.Sized) (h : x.write8 i e = .ok y) : y.Sized := by
  obtain ⟨f, hupdated, -⟩ := exists_updated_of_write8 hx.masked h
  exact hx.of_updated hupdated

theorem Sized.writeByteAt {offset e : Expr} (hx : x.Sized) (h : x.writeByteAt offset e = .ok y) : y.Sized := by
  obtain ⟨u, -, h⟩ := bind_eq_ok.1 h
  obtain ⟨index, -, h⟩ := bind_eq_ok.1 h
  obtain ⟨u', -, h⟩ := bind_eq_ok.1 h
  obtain rfl := pure_eq_ok.1 h
  exact ⟨hx.size_eq, (allFlushed_flushedTo x u').masked⟩

theorem Sized.writeAfter {offset e : Expr} (hx : x.Sized) (h : x.writeAfter offset i e = .ok y) : y.Sized := by
  unfold ObjectState.writeAfter at h
  split at h
  · obtain ⟨index, -, h⟩ := bind_eq_ok.1 h
    exact hx.write8 h
  · obtain ⟨index, -, h⟩ := bind_eq_ok.1 h
    exact hx.writeByteAt h

theorem Sized.foldlM {β : Type} {f : ObjectState → β → Checked ObjectState} {l : List β} (hx : x.Sized)
    (hf : ∀ b {y z : ObjectState}, y.Sized → f y b = .ok z → z.Sized) (h : l.foldlM f x = .ok y) : y.Sized := by
  have hends : Ends (fun _ ↦ True) (l.foldlM f x) Sized := by
    apply ends_foldlM hx
    intro b _ z hz
    rw [ends_true_iff]
    intro z' hz'
    exact hf b hz hz'
  exact hends.of_eq h

theorem Sized.run {c : Change} (hx : x.Sized) (h : c.run x = .ok y) : y.Sized := by
  cases c with
  | write8 index value => exact hx.write8 h
  | writeByteAt offset value => exact hx.writeByteAt h
  | write offset value =>
    rw [Change.run, write_eq] at h
    obtain ⟨whole, -, h⟩ := bind_eq_ok.1 h
    refine hx.foldlM (fun n z z' hz hz' ↦ ?_) h
    obtain ⟨byte, -, hz'⟩ := bind_eq_ok.1 hz'
    exact hz.writeAfter hz'
  | writeBytes offset bytes =>
    refine hx.foldlM (fun p z z' hz hz' ↦ ?_) h
    obtain ⟨index, -, hz'⟩ := bind_eq_ok.1 hz'
    exact hz.of_updated (updated_of_writeByte hz.masked hz').1
  | clear =>
    obtain rfl := pure_eq_ok.1 h
    exact ⟨(Bytes.size_zeros _).trans hx.size_eq, masked_of_none rfl rfl rfl⟩

theorem Origin.sized {object : MemoryObject} {origin : Origin} (h : origin.make object = .ok x) : x.Sized := by
  cases origin with
  | zeros =>
    obtain ⟨_, -, h⟩ := bind_eq_ok.1 h
    obtain rfl := pure_eq_ok.1 h
    exact ⟨Bytes.size_zeros _, masked_of_none rfl rfl rfl⟩
  | known bytes =>
    obtain ⟨_, hsize, h⟩ := bind_eq_ok.1 h
    obtain rfl := pure_eq_ok.1 h
    exact ⟨demand_eq_ok.1 hsize, masked_of_none rfl rfl rfl⟩
  | input array =>
    obtain ⟨hflushed, rfl, hsize, -⟩ := allFlushed_ofArray h
    exact ⟨hsize, hflushed.masked⟩

theorem Reachable.sized (hx : x.Reachable) : x.Sized := by
  induction hx with
  | make h => exact Origin.sized h
  | change _ h ih => exact ih.run h
  | mark _ readOnly owner ih => exact ⟨ih.size_eq, ih.masked.congr rfl rfl rfl rfl⟩

/-! ## Bytes that are known -/

/-- The byte at `i` is known to be `b`. -/
structure Knows (x : ObjectState) (i : Nat) (b : UInt8) : Prop where
  form_eq : x.form i = .ok .concrete
  byte_eq : x.bytes[i]? = some b

theorem isConcrete_eq_ok : x.isConcrete i = .ok true ↔ x.form i = .ok .concrete := by
  constructor
  · intro h
    rw [form, h]
    rfl
  · intro h
    obtain ⟨concrete, hconcrete, h⟩ := bind_eq_ok.1 h
    cases concrete with
    | true => exact hconcrete
    | false =>
      obtain ⟨flushed, -, h⟩ := bind_eq_ok.1 h
      cases flushed with
      | true => cases h
      | false =>
        obtain ⟨e, -, h⟩ := bind_eq_ok.1 h
        cases e <;> cases h

theorem exists_knows (hi : i < x.size) (h : x.isConcrete i = .ok true) : ∃ b, x.Knows i b :=
  ⟨_, isConcrete_eq_ok.1 h, getElem?_pos x.bytes i hi⟩

theorem Knows.readByte (h : x.Knows i b) : x.readByte i = .ok (.word b.toNat 8) := by
  rw [readByte_eq, h.form_eq, ok_bind]
  dsimp only
  rw [h.byte_eq]
  rfl

theorem Knows.of_updated {j : Nat} {f : ByteForm} (h : x.Knows j b) (hupdated : x.Updated y i f) (hne : j ≠ i) :
    y.Knows j b := by
  have hj : j < x.bytes.size := (getElem?_eq_some_iff.1 h.byte_eq).1
  exact ⟨(hupdated.form_ne j hj hne).trans h.form_eq, (hupdated.byte_ne j hne).trans h.byte_eq⟩

theorem Sized.exists_write8_const (hx : x.Sized) (hi : i < x.size) (v w : Nat) :
    ∃ y, x.write8 i (.const v w) = .ok y ∧ y.Sized ∧ y.size = x.size ∧ y.Knows i v.toUInt8 ∧
      ∀ j b, x.Knows j b → j ≠ i → y.Knows j b := by
  have hbyte : x.write8 i (.const v w) = x.writeByte i v.toUInt8 := rfl
  obtain ⟨y, hy⟩ := ObjectState.exists_write8 hi (.const v w)
  obtain ⟨hupdated, hself⟩ := updated_of_writeByte hx.masked (hbyte.symm.trans hy)
  exact ⟨y, hy, hx.of_updated hupdated, hupdated.size_eq, ⟨hupdated.form_self, hself⟩,
    fun j b hj hne ↦ hj.of_updated hupdated hne⟩

variable {k : Nat}

theorem Sized.exists_writeBytes_const {v w n : Nat} (hx : x.Sized) (hn : 8 * n ≤ w) (hin : base + n ≤ x.size)
    (hlt : x.size < wordLimit) :
    ∃ y, (List.range n).foldlM (fun x i ↦ do
        x.writeAfter (.const base k) i (← Expr.mkExtract (.word v w) (i * 8) 8)) x = .ok y ∧
      y.Sized ∧ y.size = x.size ∧ ∀ i < n, y.Knows (base + i) (v / 2 ^ (8 * i)).toUInt8 := by
  induction n with
  | zero => exact ⟨x, rfl, hx, rfl, nofun⟩
  | succ n ih =>
    obtain ⟨y, hy, hys, hsize, hknows⟩ := ih (by omega) (by omega)
    have hbyte : Expr.mkExtract (.word v w) (n * 8) 8 = .ok (.word (v >>> (n * 8)) 8) := by
      rw [Expr.mkExtract_eq_ok, Expr.width_word]
      exact ⟨⟨by decide, by omega⟩, Expr.extractCore_word (by omega)⟩
    have hadd : addChecked base n = .ok (base + n) := addChecked_eq_ok.2 ⟨by omega, rfl⟩
    obtain ⟨z, hz, hzs, hzsize, hself, hkept⟩ := hys.exists_write8_const (i := base + n) (by omega)
      (trunc 8 (v >>> (n * 8))) 8
    refine ⟨z, ?_, hzs, hzsize.trans hsize, fun i hi ↦ ?_⟩
    · rw [List.range_succ, List.foldlM_append, hy]
      simp only [List.foldlM_cons, List.foldlM_nil, ok_bind, hbyte, ObjectState.writeAfter, Expr.value?, hadd,
        bind_pure]
      exact hz
    · obtain hi | rfl := Nat.lt_succ_iff_lt_or_eq.1 hi
      · exact hkept _ _ (hknows i hi) (by omega)
      · have hself' : (trunc 8 (v >>> (i * 8))).toUInt8 = (v / 2 ^ (8 * i)).toUInt8 := by
          rw [trunc_eq, Nat.shiftRight_eq_div_pow, Nat.mul_comm i 8, Nat.toUInt8_eq, UInt8.ofNat_mod_size,
            Nat.toUInt8_eq]
        rwa [hself'] at hself

theorem exists_joined_word {n : Nat} (hlt : base + n ≤ wordLimit) (hn : n ≤ 8)
    (h : ∀ i < n, ∃ b, x.Knows (base + i) b) :
    ∃ low, (List.range n).foldlM (fun low i ↦ do joinByte low (← x.readByteAfter (.const base k) i)) none =
        .ok low ∧
      (n = 0 → low = none) ∧ (0 < n → low = some (.word (Bytes.number x.bytes base n) (8 * n))) := by
  induction n with
  | zero => exact ⟨none, rfl, fun _ ↦ rfl, fun hn ↦ absurd hn (Nat.lt_irrefl 0)⟩
  | succ n ih =>
    obtain ⟨low, hlow, hzero, hpos⟩ := ih (by omega) (by omega) fun i hi ↦ h i (by omega)
    obtain ⟨b, hb⟩ := h n (Nat.lt_succ_self n)
    have hadd : addChecked base n = .ok (base + n) := addChecked_eq_ok.2 ⟨by omega, rfl⟩
    have hread : x.readByteAfter (.const base k) n = .ok (.word b.toNat 8) := by
      rw [readByteAfter]
      simp only [Expr.value?, hadd, ok_bind]
      exact hb.readByte
    have hnumber : Bytes.number x.bytes base (n + 1) = Bytes.number x.bytes base n + b.toNat * 2 ^ (8 * n) := by
      rw [Bytes.number, hb.byte_eq]
      rfl
    have hfold : (List.range (n + 1)).foldlM (fun low i ↦ do
        joinByte low (← x.readByteAfter (.const base k) i)) none = joinByte low (.word b.toNat 8) := by
      rw [List.range_succ, List.foldlM_append, hlow]
      simp only [List.foldlM_cons, List.foldlM_nil, ok_bind, hread, bind_pure]
    rw [hfold]
    obtain rfl | hn0 := Nat.eq_zero_or_pos n
    · obtain rfl := hzero rfl
      refine ⟨_, rfl, fun h0 ↦ absurd h0 (Nat.succ_ne_zero 0), fun _ ↦ ?_⟩
      rw [hnumber, Bytes.number, Nat.zero_add, Nat.mul_zero, Nat.pow_zero, Nat.mul_one]
    · obtain rfl := hpos hn0
      have hconcat : Expr.mkConcat (.word b.toNat 8) (.word (Bytes.number x.bytes base n) (8 * n)) =
          .ok (.word (Bytes.number x.bytes base (n + 1)) (8 * (n + 1))) := by
        rw [Expr.mkConcat_eq_ok, Expr.width_word, Expr.width_word]
        refine ⟨by omega, ?_⟩
        rw [Expr.concatCore_word, trunc_of_lt b.toNat_lt, trunc_of_lt (Bytes.number_lt _ _ _), hnumber,
          Nat.add_comm 8, Nat.add_comm (b.toNat * _), Nat.mul_succ]
      rw [joinByte, hconcat]
      exact ⟨_, rfl, fun h0 ↦ absurd h0 (Nat.succ_ne_zero n), fun _ ↦ rfl⟩

theorem read_of_knows {w : Nat} (hlt : base + byteCount w ≤ wordLimit) (hw : 0 < w ∧ w ≤ 64)
    (h : ∀ i < byteCount w, ∃ b, x.Knows (base + i) b) :
    x.read (.const base k) w = .ok (.word (Bytes.number x.bytes base (byteCount w)) w) := by
  have hcount : byteCount w ≤ 8 ∧ 0 < byteCount w ∧ w ≤ 8 * byteCount w := by
    unfold byteCount
    omega
  have hcc : byteCountChecked w = .ok (byteCount w) := by
    rw [byteCountChecked, demand_of (show w + 7 < pow2 32 by simp only [pow2, Nat.pow_eq]; omega)]
    rfl
  obtain ⟨low, hlow, -, hword⟩ := exists_joined_word hlt hcount.1 h
  obtain rfl := hword hcount.2.1
  rw [read_eq, demand_of (show w ≤ maxWidth from hw.2), ok_bind, hcc, ok_bind, hlow, ok_bind, Option.getD_some,
    Expr.mkExtract_eq_ok, Expr.width_word, Nat.zero_add]
  refine ⟨⟨hw.1, hcount.2.2⟩, ?_⟩
  rw [Expr.extractCore_word (by omega), Nat.shiftRight_zero]

theorem wholeBytes_const {v w : Nat} (hw : 0 < w ∧ w ≤ 64) (hv : v < 2 ^ w) :
    wholeBytes (.const v w) = .ok (.word v (8 * byteCount w)) := by
  have hlt : v < 2 ^ (8 * byteCount w) := by
    refine Nat.lt_of_lt_of_le hv (Nat.pow_le_pow_right (by decide) ?_)
    unfold byteCount
    omega
  have hmul : byteCount w * 8 = 8 * byteCount w := Nat.mul_comm ..
  unfold wholeBytes
  rw [Expr.width_const, hmul]
  split
  · rename_i hmod
    have hwidth : 8 * byteCount w = w := by
      unfold byteCount
      omega
    rw [Expr.word_of_lt hlt, hwidth]
    rfl
  · rename_i hmod
    have hwidth : w < 8 * byteCount w ∧ 8 * byteCount w ≤ 64 := by
      unfold byteCount
      omega
    unfold Expr.mkZext
    rw [Expr.width_const, if_neg (by omega), if_neg (by omega),
      demand_of (show 8 * byteCount w ≤ maxWidth from hwidth.2)]
    rfl

/-- A constant that is written inside contents that can be is in bytes that are known and is read back as it is.
Bytes that are known, of any contents, are read as the constant that they stand for. -/
theorem write_read_const {v w : Nat} (hw : 0 < w ∧ w ≤ 64) (hmax : x.size ≤ maxBytes)
    (hin : base + byteCount w ≤ x.size) :
    (x.Reachable → v < 2 ^ w → ∃ y, x.write (.const base k) (.const v w) = .ok y ∧
      (∀ i < byteCount w, y.isConcrete (base + i) = .ok true) ∧
      y.read (.const base k) w = .ok (.const v w)) ∧
    ((∀ i < byteCount w, x.isConcrete (base + i) = .ok true) →
      x.read (.const base k) w = .ok (.const (Bytes.number x.bytes base (byteCount w) % 2 ^ w) w)) := by
  have hlimit : x.size < wordLimit := Nat.lt_of_le_of_lt hmax (by decide)
  constructor
  · intro hx hv
    obtain ⟨y, hy, -, hsize, hknows⟩ := hx.sized.exists_writeBytes_const (v := v) (k := k)
      (Nat.le_refl (8 * byteCount w)) hin hlimit
    refine ⟨y, ?_, fun i hi ↦ isConcrete_eq_ok.2 (hknows i hi).form_eq, ?_⟩
    · rw [write_eq, wholeBytes_const hw hv, ok_bind, Expr.width_const]
      exact hy
    · have hnumber := Bytes.number_of_getElem? fun i hi ↦ (hknows i hi).byte_eq
      have hle : 2 ^ w ≤ 2 ^ (8 * byteCount w) := by
        refine Nat.pow_le_pow_right (by decide) ?_
        unfold byteCount
        omega
      rw [read_of_knows (by omega) hw fun i hi ↦ ⟨_, hknows i hi⟩, hnumber,
        Nat.mod_eq_of_lt (Nat.lt_of_lt_of_le hv hle), Expr.word_of_lt hv]
  · intro h
    rw [read_of_knows (by omega) hw fun i hi ↦ exists_knows (by omega) (h i hi), Expr.word, trunc_eq]

/-- Nine bits in the middle of an object that was flushed. -/
theorem write_read_const_nine_bits :
    let object : MemoryObject := ⟨0, 4096, 4, "m", false, false, false, .unknown⟩
    let offset : Expr := .zext (.read (.base (.symbolic "x" 1)) (.const 0 32)) 64
    ∃ x y, (do Change.run (← Origin.make object (.known ⟨#[1, 2, 3, 4]⟩)) (.writeByteAt offset (.const 7 8))) =
        .ok x ∧ x.isConcrete 2 = .ok false ∧ x.write (.const 1 64) (.const 0x1ff 9) = .ok y ∧
      y.isConcrete 2 = .ok true ∧ y.read (.const 1 64) 9 = .ok (.const 0x1ff 9) := by
  intro object offset
  obtain ⟨x, hx⟩ : ∃ x, Change.run { object, bytes := ⟨#[1, 2, 3, 4]⟩ } (.writeByteAt offset (.const 7 8)) =
      .ok x := ⟨_, rfl⟩
  have hmake : Origin.make object (.known ⟨#[1, 2, 3, 4]⟩) = .ok { object, bytes := ⟨#[1, 2, 3, 4]⟩ } := rfl
  have hreachable : x.Reachable := .change (.make hmake) hx
  have hsize : x.size = 4 := by
    obtain rfl := Except.ok.inj hx
    rfl
  have hmax : x.size ≤ maxBytes := by
    rw [hsize]
    decide
  have hin : 1 + byteCount 9 ≤ x.size := by
    rw [hsize]
    decide
  have hwritten := @write_read_const x 1 64 0x1ff 9 (by decide) hmax hin
  obtain ⟨y, hy, hconcrete, hread⟩ := hwritten.1 hreachable (by decide)
  refine ⟨x, y, hx, ?_, hy, hconcrete 1 (by decide), hread⟩
  obtain rfl := Except.ok.inj hx
  rfl

end ObjectState

end Symex
