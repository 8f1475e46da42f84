import Symex.Proofs.Contents

namespace Symex

open Bits

namespace ObjectState

variable {a : Assignment} {S : NamedArray → Prop} {x : ObjectState} {i : Nat}

def image (a : Assignment) (x : ObjectState) : ByteArray :=
  ⟨Array.ofFn fun i : Fin x.object.size ↦ (byteAt a x i).toUInt8⟩

@[simp] theorem size_image (a : Assignment) (x : ObjectState) : (image a x).size = x.object.size := by
  change (image a x).data.size = _
  simp [image]

theorem getElem?_image (a : Assignment) (x : ObjectState) (i : Nat) :
    (image a x)[i]? = if i < x.object.size then some (byteAt a x i).toUInt8 else none := by
  rw [Bytes.getElem?_eq_data]
  simp [image, Array.getElem?_ofFn]

theorem bytes_ext {p q : ByteArray} (h : ∀ i : Nat, p[i]? = q[i]?) : p = q := by
  apply ByteArray.ext
  apply Array.ext_getElem?
  intro i
  rw [← Bytes.getElem?_eq_data, ← Bytes.getElem?_eq_data]
  exact h i

/-- Puts a byte above those that were read before. -/
def joinByte (low : Option Expr) (byte : Expr) : Checked (Option Expr) :=
  match low with
  | none => return some byte
  | some low => return some (← Expr.mkConcat byte low)

theorem read_eq (x : ObjectState) (offset : Expr) (width : Nat) :
    x.read offset width = (do
      demand (width ≤ maxWidth) .width
      let count ← byteCountChecked width
      let bytes ← (List.range count).foldlM (fun low i ↦ do
        joinByte low (← x.readByteAfter offset i)) none
      Expr.mkExtract (bytes.getD (.word 0 8)) 0 width) := rfl

/-- The byte of a value that is written at the `i`-th place. -/
def writeAfter (x : ObjectState) (offset : Expr) (i : Nat) (byte : Expr) : Checked ObjectState :=
  match offset.value? with
  | some base => do x.write8 (← addChecked base i) byte
  | none => do x.writeByteAt (← place offset i) byte

/-- The value that is written, with zeros up to a whole number of bytes. -/
def wholeBytes (value : Expr) : Checked Expr :=
  if value.width % 8 = 0 then pure value else Expr.mkZext value (byteCount value.width * 8)

theorem write_eq (x : ObjectState) (offset value : Expr) :
    x.write offset value = (do
      let whole ← wholeBytes value
      (List.range (byteCount value.width)).foldlM (fun x i ↦ do
        x.writeAfter offset i (← Expr.mkExtract whole (i * 8) 8)) x) := by
  rw [write, wholeBytes]
  simp only [writeAfter]
  split
  · congr 1
  · congr 1

theorem proper_of_concrete {object : MemoryObject} {bytes : ByteArray} {readOnly : Bool} {owner : Nat}
    (hb : bytes.size = object.size) (hsmall : object.size ≤ 2 ^ 32) :
    Proper S { object, bytes, readOnly, owner } where
  size_eq := hb
  small := hsmall
  masked := masked_of_none rfl rfl rfl
  symbolic _ _ h := by cases h
  updates _ h := by cases h
  flushed _ h := by cases h

theorem image_of_concrete {object : MemoryObject} {bytes : ByteArray} {readOnly : Bool} {owner : Nat}
    (hb : bytes.size = object.size) : image a { object, bytes, readOnly, owner } = bytes := by
  apply bytes_ext
  intro j
  rw [getElem?_image]
  split
  · rename_i hj
    rw [← hb] at hj
    change some ((bytes[j]?.getD 0).toNat.toUInt8) = _
    rw [getElem?_pos bytes j hj, Option.getD_some, Nat.toUInt8_eq, UInt8.ofNat_toNat]
  · rename_i hj
    rw [getElem?_neg bytes j (by rwa [hb])]

theorem zeroed_eq {object : MemoryObject} (h : object.size ≤ maxBytes) :
    zeroed object = .ok { object, bytes := Bytes.zeros object.size } := by
  rw [zeroed, demand_of h]
  rfl

theorem zeroed_proper {object : MemoryObject} (hsmall : object.size ≤ 2 ^ 32)
    (h : zeroed object = .ok x) : x.Proper S := by
  obtain ⟨_, -, h⟩ := Checked.bind_eq_ok.1 h
  obtain rfl := Checked.pure_eq_ok.1 h
  exact proper_of_concrete (Bytes.size_zeros _) hsmall

theorem byteAt_ofArray {object : MemoryObject} {array : NamedArray} (h : ofArray object array = .ok x)
    (hi : i < object.size) : byteAt a x i = ((a.byte? array i).getD 0).toNat := by
  obtain ⟨hflushed, -, hsize, hu⟩ := allFlushed_ofArray h
  have hrd : a.rd (.base array) i = ((a.byte? array i).getD 0).toNat := by
    rw [Assignment.rd, Assignment.evalRead_base]
    cases a.byte? array i with
    | none => rfl
    | some b => rfl
  rw [byteAt, form_of_marked (hflushed.marked (by rwa [hsize])), hu, ← hrd]
  rfl

theorem ofArray_proper {object : MemoryObject} {array : NamedArray} (hA : S array)
    (hsmall : object.size ≤ 2 ^ 32) (h : ofArray object array = .ok x) : x.Proper S := by
  obtain ⟨hflushed, rfl, hsize, hu⟩ := allFlushed_ofArray h
  refine ⟨hsize, hsmall, hflushed.masked, ?_, ?_, ?_⟩
  · intro j e he
    cases (hflushed.form_eq he).2
  · intro u hu'
    obtain rfl := Option.some.inj (hu.symm.trans hu')
    exact Updates.over_base hA
  · intro j _
    rw [hu]
    rfl

end ObjectState

end Symex
