import Symex.Memory.Contents
import Symex.Proofs.Concretes
import Symex.Proofs.Odometer

namespace Symex

open Bits

/-! ## Reads of updated arrays -/

namespace Assignment

def rd (a : Assignment) (u : Updates) (n : Nat) : Nat := (a.evalRead u n).getD 0

variable {a : Assignment}

theorem evalRead_eq_rd (ha : a.free) (u : Updates) (n : Nat) : a.evalRead u n = some (a.rd u n) := by
  obtain ⟨v, hv⟩ := exists_evalRead ha u n
  rw [rd, hv, Option.getD_some]

theorem rd_write (ha : a.free) (i x : Expr) (u : Updates) (n : Nat) :
    a.rd (.write i x u) n = if a.val i = n then a.val x else a.rd u n := by
  have h : a.evalRead (.write i x u) n = some (if a.val i = n then a.val x else a.rd u n) := by
    refine evalRead_write.2 ⟨a.val i, a.eval_eq_val ha i, ?_⟩
    split
    · exact a.eval_eq_val ha x
    · exact evalRead_eq_rd ha u n
  rw [rd, h, Option.getD_some]

theorem rd_lt (ha : a.free) {u : Updates} (hu : u.WellFormed) (n : Nat) : a.rd u n < 2 ^ 8 :=
  evalRead_lt hu (evalRead_eq_rd ha u n)

theorem rd_constant (name : String) {bytes : ByteArray} {n : Nat} (h : n < bytes.size) :
    a.rd (.base (.constant name bytes)) n = (bytes[n]?.getD 0).toNat := by
  rw [rd, evalRead_base, byte?]
  simp only [NamedArray.byte?, NamedArray.constant, Option.bind_some, getElem?_pos bytes n h,
    Option.map_some, Option.getD_some]

theorem val_read (ha : a.free) (u : Updates) (i : Expr) : a.val (.read u i) = a.rd u (a.val i) :=
  val_eq (eval_read.2 ⟨_, a.eval_eq_val ha i, evalRead_eq_rd ha u _⟩)

end Assignment

theorem BinOp.fold_add (x y w : Nat) : BinOp.add.fold x y w = (x + y) % 2 ^ w := by
  simp only [fold, trunc_eq, ← Nat.add_mod]

namespace Updates

variable {a : Assignment} {S : NamedArray → Prop} {u u' : Updates}

/-- A well-formed array with writes over the arrays in `S`. -/
structure Over (S : NamedArray → Prop) (u : Updates) : Prop where
  wellFormed : u.WellFormed
  readsIn : u.ReadsIn S

theorem over_base {array : NamedArray} (h : S array) : (Updates.base array).Over S := by
  constructor
  · simp only [WellFormed]
  · simpa only [ReadsIn] using h

theorem extend_over {i x : Expr} (hu : u.Over S) (hi : i.Over S) (hx : x.Over S)
    (h : u.extend i x = .ok u') : u'.Over S := by
  obtain ⟨hw, rfl⟩ := extend_eq_ok.1 h
  constructor
  · simp only [WellFormed]
    exact ⟨hi.wellFormed, hx.wellFormed, hu.wellFormed, hw⟩
  · simp only [ReadsIn]
    exact ⟨hi.readsIn, hx.readsIn, hu.readsIn⟩

theorem rd_extend (ha : a.free) {i x : Expr} (h : u.extend i x = .ok u') (n : Nat) :
    a.rd u' n = if a.val i = n then a.val x else a.rd u n := by
  obtain ⟨-, rfl⟩ := extend_eq_ok.1 h
  exact Assignment.rd_write ha i x u n

theorem mkRead_over {i e : Expr} (hu : u.Over S) (hi : i.Over S) (h : Expr.mkRead u i = .ok e) :
    e.Over S ∧ e.width = 8 := by
  obtain ⟨hw, rfl⟩ := Expr.mkRead_eq_ok.1 h
  have hwf : (Expr.read u i).WellFormed := by
    simp only [Expr.WellFormed]
    exact ⟨hu.wellFormed, hi.wellFormed, hw⟩
  have hreads : (Expr.read u i).ReadsIn S := by
    simp only [Expr.ReadsIn]
    exact ⟨hu.readsIn, hi.readsIn⟩
  have href := Expr.readCore_refines (a := ⟨true, {}⟩) hwf
  exact ⟨⟨href.wellFormed, Expr.readCore_readsIn hreads⟩, href.width_eq⟩

theorem val_mkRead {i e : Expr} (ha : a.free) (hu : u.WellFormed) (hi : i.WellFormed)
    (h : Expr.mkRead u i = .ok e) : a.val e = a.rd u (a.val i) := by
  obtain ⟨hw, rfl⟩ := Expr.mkRead_eq_ok.1 h
  have hwf : (Expr.read u i).WellFormed := by
    simp only [Expr.WellFormed]
    exact ⟨hu, hi, hw⟩
  rw [(Expr.readCore_refines hwf).val_eq ha, Assignment.val_read ha]

theorem overlay_succ {pick : Nat → Checked (Option Expr)} {n : Nat} :
    u.overlay pick (n + 1) = (do
      let v ← u.overlay pick n
      match ← pick n with
      | some e => v.extendAt n e
      | none => return v) := by
  unfold overlay
  rw [List.range_succ, List.foldlM_append]
  exact bind_congr fun v ↦ bind_pure _

theorem exists_overlay {pick : Nat → Checked (Option Expr)} {byte : Nat → Option Expr} {n : Nat}
    (hn : n ≤ 2 ^ 32) (hu : u.Over S) (hpick : ∀ i < n, pick i = .ok (byte i))
    (hbyte : ∀ i < n, ∀ e, byte i = some e → e.Over S ∧ e.width = 8) :
    ∃ u', u.overlay pick n = .ok u' ∧ u'.Over S ∧ ∀ {a : Assignment}, a.free → ∀ i,
      a.rd u' i = if i < n then ((byte i).map a.val).getD (a.rd u i) else a.rd u i := by
  induction n with
  | zero => exact ⟨u, rfl, hu, fun _ _ ↦ rfl⟩
  | succ n ih =>
    obtain ⟨v, hv, hover, hrd⟩ := ih (by omega) (fun i hi ↦ hpick i (by omega)) fun i hi ↦ hbyte i (by omega)
    rw [overlay_succ, hv, Checked.ok_bind, hpick n (by omega), Checked.ok_bind]
    -- the byte at `n` is the last one written; those before it keep what they have
    have hother : ∀ {a : Assignment}, a.free → ∀ i, i ≠ n →
        a.rd v i = if i < n + 1 then ((byte i).map a.val).getD (a.rd u i) else a.rd u i := by
      intro a ha i hi
      rw [hrd ha i]
      exact ite_congr (propext (by omega)) (fun _ ↦ rfl) fun _ ↦ rfl
    cases hb : byte n with
    | none =>
      refine ⟨v, rfl, hover, fun {a} ha i ↦ ?_⟩
      by_cases hi : i = n
      · rw [hi, hrd ha n, if_neg (Nat.lt_irrefl n), if_pos (Nat.lt_succ_self n), hb]
        rfl
      · exact hother ha i hi
    | some e =>
      obtain ⟨he, hw⟩ := hbyte n (by omega) e hb
      have hext : v.extendAt n e = .ok (.write (.word n 32) e v) := extend_eq_ok.2 ⟨⟨rfl, hw⟩, rfl⟩
      refine ⟨_, hext, extend_over hover (Expr.over_word _ (by decide) (by decide)) he hext,
        fun {a} ha i ↦ ?_⟩
      rw [rd_extend ha hext, Assignment.val_eq (Assignment.eval_word ..), Nat.mod_eq_of_lt (by omega)]
      split
      · rename_i hi
        rw [← hi, if_pos (Nat.lt_succ_self n), hb]
        rfl
      · exact hother ha i (Ne.symm ‹_›)

end Updates

/-- Where the value of a byte is found. -/
inductive ByteForm where
  /-- In the concrete bytes. -/
  | concrete
  /-- It is this expression. -/
  | symbolic (e : Expr)
  /-- By a read of the array. -/
  | flushed

namespace ByteForm

def isConcrete : ByteForm → Bool
  | concrete => true
  | _ => false

def isFlushed : ByteForm → Bool
  | flushed => true
  | _ => false

def term? : ByteForm → Option Expr
  | symbolic e => some e
  | _ => none

end ByteForm

namespace ObjectState

variable {a : Assignment} {S : NamedArray → Prop} {x y : ObjectState} {i j : Nat} {e : Expr}
  {f : ByteForm}

/-! ## The three masks -/

section

variable {α : Type} {mask : Option (Array α)} {absent b : α} {n : Nat}

theorem entry_set_ne (hj : j ≠ i) :
    entry (mask.map (·.setIfInBounds i b)) absent j = entry mask absent j := by
  cases mask with
  | none => rfl
  | some m => simp only [entry, Option.map_some, Array.getElem?_setIfInBounds_ne (Ne.symm hj)]

theorem entry_set_self (hmask : ∀ m, mask = some m → m.size = n) (hi : i < n) :
    entry (mask.map (·.setIfInBounds i absent)) absent i = .ok absent := by
  cases mask with
  | none => rfl
  | some m =>
    have hlt : i < m.size := hmask m rfl ▸ hi
    simp only [entry, Option.map_some, Array.getElem?_setIfInBounds_self_of_lt hlt]

theorem entry_insert_ne (hj : j ≠ i) (hlt : j < n) :
    entry (some ((mask.getD (Array.replicate n absent)).setIfInBounds i b)) absent j =
      entry mask absent j := by
  cases mask with
  | none =>
    simp only [entry, Option.getD_none, Array.getElem?_setIfInBounds_ne (Ne.symm hj),
      Array.getElem?_replicate, if_pos hlt]
  | some m => simp only [entry, Option.getD_some, Array.getElem?_setIfInBounds_ne (Ne.symm hj)]

theorem size_getD (hmask : ∀ m, mask = some m → m.size = n) :
    (mask.getD (Array.replicate n absent)).size = n := by
  cases mask with
  | none => exact Array.size_replicate
  | some m => exact hmask m rfl

theorem entry_insert_self (hmask : ∀ m, mask = some m → m.size = n) (hi : i < n) :
    entry (some ((mask.getD (Array.replicate n absent)).setIfInBounds i b)) absent i = .ok b := by
  have hlt : i < (mask.getD (Array.replicate n absent)).size := by rwa [size_getD hmask]
  simp only [entry, Array.getElem?_setIfInBounds_self_of_lt hlt]

theorem entry_replicate (hi : i < n) : entry (some (Array.replicate n b)) absent i = .ok b := by
  simp only [entry, Array.getElem?_replicate, if_pos hi]

theorem lt_of_entry (hmask : ∀ m, mask = some m → m.size = n) (h : entry mask absent i = .ok b)
    (hne : b ≠ absent) : i < n := by
  cases mask with
  | none => exact (hne (Except.ok.inj h).symm).elim
  | some m =>
    rw [← hmask m rfl]
    refine Nat.lt_of_not_le fun hi ↦ ?_
    rw [entry, Array.getElem?_eq_none hi] at h
    cases h

end

/-- At `i` the three masks are those of a byte of the form `f`. -/
structure MarkedAs (x : ObjectState) (i : Nat) (f : ByteForm) : Prop where
  concrete : x.isConcrete i = .ok f.isConcrete
  flushed : x.isFlushed i = .ok f.isFlushed
  known : x.known? i = .ok f.term?

/-- The masks that there are cover all bytes, and at no byte do they contradict each other. -/
structure Masked (x : ObjectState) : Prop where
  concreteMask : ∀ m, x.concreteMask = some m → m.size = x.bytes.size
  flushedMask : ∀ m, x.flushedMask = some m → m.size = x.bytes.size
  table : ∀ t, x.table = some t → t.size = x.bytes.size
  marked : ∀ i < x.bytes.size, ∃ f, x.MarkedAs i f

/-- The form of the byte at `index` as reads take it from the masks: the concrete mask comes first, and
a byte in none of the three is read from the array. -/
def form (x : ObjectState) (index : Nat) : Checked ByteForm := do
  if ← x.isConcrete index then return .concrete
  if ← x.isFlushed index then return .flushed
  match ← x.known? index with
  | some e => return .symbolic e
  | none => return .flushed

theorem form_of_marked (h : x.MarkedAs i f) : x.form i = .ok f := by
  unfold form
  rw [h.concrete, h.flushed, h.known]
  cases f <;> rfl

theorem Masked.exists_form (h : x.Masked) (hi : i < x.bytes.size) : ∃ f, x.form i = .ok f := by
  obtain ⟨f, hf⟩ := h.marked i hi
  exact ⟨f, form_of_marked hf⟩

/-- The form that reads find is the one that all masks agree on. -/
theorem Masked.form_eq_ok_iff (h : x.Masked) (hi : i < x.bytes.size) : x.form i = .ok f ↔ x.MarkedAs i f := by
  refine ⟨fun hf ↦ ?_, form_of_marked⟩
  obtain ⟨g, hg⟩ := h.marked i hi
  rwa [← Except.ok.inj ((form_of_marked hg).symm.trans hf)]

theorem form_of_no_mask (h : x.concreteMask = none) : x.form i = .ok .concrete := by
  rw [form, isConcrete, h]
  rfl

theorem Masked.lt_of_form (h : x.Masked) (hf : x.form i = .ok f) (hne : f ≠ .concrete) :
    i < x.bytes.size := by
  obtain ⟨b, hb, hf⟩ := Checked.bind_eq_ok.1 hf
  cases b with
  | true => exact (hne (Except.ok.inj hf).symm).elim
  | false => exact lt_of_entry h.concreteMask hb Bool.false_ne_true

theorem Masked.congr (h : x.Masked) (hsize : y.bytes.size = x.bytes.size)
    (hconcrete : y.concreteMask = x.concreteMask) (hflushed : y.flushedMask = x.flushedMask)
    (htable : y.table = x.table) : y.Masked where
  concreteMask m hm := by rw [hsize]; exact h.concreteMask m (hconcrete ▸ hm)
  flushedMask m hm := by rw [hsize]; exact h.flushedMask m (hflushed ▸ hm)
  table t ht := by rw [hsize]; exact h.table t (htable ▸ ht)
  marked i hi := by
    obtain ⟨f, hc, hf, hk⟩ := h.marked i (hsize ▸ hi)
    refine ⟨f, ?_, ?_, ?_⟩
    · rwa [isConcrete, hconcrete]
    · rwa [isFlushed, hflushed]
    · rwa [known?, htable]

theorem masked_of_none (hconcrete : x.concreteMask = none) (hflushed : x.flushedMask = none)
    (htable : x.table = none) : x.Masked where
  concreteMask m hm := by rw [hconcrete] at hm; cases hm
  flushedMask m hm := by rw [hflushed] at hm; cases hm
  table t ht := by rw [htable] at ht; cases ht
  marked i _ := by
    refine ⟨.concrete, ?_, ?_, ?_⟩
    · rw [isConcrete, hconcrete]; rfl
    · rw [isFlushed, hflushed]; rfl
    · rw [known?, htable]; rfl

/-- All bytes are read from the array. -/
structure AllFlushed (x : ObjectState) : Prop where
  concreteMask : x.concreteMask = some (Array.replicate x.bytes.size false)
  flushedMask : x.flushedMask = some (Array.replicate x.bytes.size true)
  table : x.table = none

theorem AllFlushed.marked (h : x.AllFlushed) (hi : i < x.bytes.size) : x.MarkedAs i .flushed where
  concrete := by rw [isConcrete, h.concreteMask]; exact entry_replicate hi
  flushed := by rw [isFlushed, h.flushedMask]; exact entry_replicate hi
  known := by rw [known?, h.table]; rfl

theorem AllFlushed.masked (h : x.AllFlushed) : x.Masked where
  concreteMask m hm := by
    rw [h.concreteMask] at hm
    rw [← Option.some.inj hm, Array.size_replicate]
  flushedMask m hm := by
    rw [h.flushedMask] at hm
    rw [← Option.some.inj hm, Array.size_replicate]
  table t ht := by rw [h.table] at ht; cases ht
  marked _ hi := ⟨.flushed, h.marked hi⟩

theorem AllFlushed.form_eq (h : x.AllFlushed) (hf : x.form i = .ok f) : i < x.bytes.size ∧ f = .flushed := by
  have hi : i < x.bytes.size := by
    refine Nat.lt_of_not_le fun hi ↦ ?_
    have hout : (Array.replicate x.bytes.size false)[i]? = none :=
      Array.getElem?_eq_none (by rwa [Array.size_replicate])
    rw [form, isConcrete, h.concreteMask, entry, hout] at hf
    cases hf
  exact ⟨hi, Except.ok.inj (hf.symm.trans (form_of_marked (h.marked hi)))⟩

theorem allFlushed_flushedTo (x : ObjectState) (u : Updates) : (x.flushedTo u).AllFlushed := ⟨rfl, rfl, rfl⟩

theorem allFlushed_ofArray {object : MemoryObject} {array : NamedArray} (h : ofArray object array = .ok x) :
    x.AllFlushed ∧ x.object = object ∧ x.bytes.size = object.size ∧ x.updates? = some (.base array) := by
  obtain ⟨z, hz, h⟩ := Checked.bind_eq_ok.1 h
  obtain rfl := Checked.pure_eq_ok.1 h
  obtain ⟨_, -, hz⟩ := Checked.bind_eq_ok.1 hz
  obtain rfl := Checked.pure_eq_ok.1 hz
  have hsize : (Bytes.zeros object.size).size = object.size := Bytes.size_zeros _
  exact ⟨⟨by simp only [hsize], by simp only [hsize], rfl⟩, rfl, hsize, rfl⟩

def byteAt (a : Assignment) (x : ObjectState) (i : Nat) : Nat :=
  match x.form i with
  | .ok .concrete => (x.bytes[i]?.getD 0).toNat
  | .ok (.symbolic e) => a.val e
  | .ok .flushed => (x.updates?.map (a.rd · i)).getD 0
  | .error _ => 0

/-- Contents that fit their object and are made of terms over the arrays in `S`. -/
structure Proper (S : NamedArray → Prop) (x : ObjectState) : Prop where
  size_eq : x.bytes.size = x.object.size
  small : x.object.size ≤ 2 ^ 32
  masked : x.Masked
  symbolic : ∀ i e, x.form i = .ok (.symbolic e) → e.Over S ∧ e.width = 8
  updates : ∀ u, x.updates? = some u → u.Over S
  flushed : ∀ i, x.form i = .ok .flushed → x.updates?.isSome

theorem Proper.exists_form (hx : x.Proper S) (hi : i < x.object.size) : ∃ f, x.form i = .ok f :=
  hx.masked.exists_form (by rwa [hx.size_eq])

theorem Proper.byteAt_lt (ha : a.free) (hx : x.Proper S) (i : Nat) : byteAt a x i < 2 ^ 8 := by
  unfold byteAt
  split
  · exact (x.bytes[i]?.getD 0).toNat_lt
  · rename_i e he
    obtain ⟨he, hw⟩ := hx.symbolic i e he
    rw [← hw]
    exact a.val_lt ha he.wellFormed
  · rename_i hf
    obtain ⟨u, hu⟩ := Option.isSome_iff_exists.1 (hx.flushed i hf)
    rw [hu, Option.map_some, Option.getD_some]
    exact Assignment.rd_lt ha (hx.updates u hu).wellFormed i
  · decide

/-! ## All bytes as one array -/

/-- The byte that the first layer of writes puts on the array. -/
def concretePick (x : ObjectState) (i : Nat) : Option Expr :=
  match x.form i with
  | .ok .concrete => some (.word (x.bytes[i]?.getD 0).toNat 8)
  | _ => none

/-- The byte that the second layer of writes puts on the array. -/
def symbolicPick (x : ObjectState) (i : Nat) : Option Expr :=
  match x.form i with
  | .ok (.symbolic e) => some e
  | _ => none

theorem Masked.newByte?_eq (h : x.Masked) (hi : i < x.bytes.size) :
    x.newByte? i = .ok (concretePick x i) := by
  obtain ⟨f, hf⟩ := h.marked i hi
  rw [newByte?, concretePick, hf.concrete, hf.flushed, form_of_marked hf]
  cases f <;> rfl

theorem Masked.newTerm?_eq (h : x.Masked) (hi : i < x.bytes.size) :
    x.newTerm? i = .ok (symbolicPick x i) := by
  obtain ⟨f, hf⟩ := h.marked i hi
  rw [newTerm?, symbolicPick, hf.known, hf.flushed, form_of_marked hf]
  cases f <;> rfl

theorem Masked.symbolicPick_of_no_table (h : x.Masked) (ht : x.table = none) (hi : i < x.bytes.size) :
    symbolicPick x i = none := by
  have hnone : x.newTerm? i = .ok none := by
    rw [newTerm?, known?, ht]
    rfl
  exact Except.ok.inj ((h.newTerm?_eq hi).symm.trans hnone)

def lowerLayer (x : ObjectState) : Checked Updates :=
  match x.updates? with
  | some u => u.overlay x.newByte? x.size
  | none => pure (.base x.ownArray)

theorem Proper.exists_lowerLayer (hS : ∀ name bytes, S (.constant name bytes)) (hx : x.Proper S) :
    ∃ u, lowerLayer x = .ok u ∧ u.Over S ∧ ∀ {a : Assignment}, a.free → ∀ i < x.object.size,
      symbolicPick x i = none → a.rd u i = byteAt a x i := by
  unfold lowerLayer
  split
  · rename_i u₀ hu₀
    have hsmall : x.bytes.size ≤ 2 ^ 32 := hx.size_eq ▸ hx.small
    have hbyte : ∀ i < x.bytes.size, ∀ e, concretePick x i = some e → e.Over S ∧ e.width = 8 := by
      intro i _ e he
      unfold concretePick at he
      split at he
      · obtain rfl := Option.some.inj he
        exact ⟨Expr.over_word _ (by decide) (by decide), rfl⟩
      · cases he
    obtain ⟨u, hu, hover, hrd⟩ := Updates.exists_overlay hsmall (hx.updates u₀ hu₀)
      (fun i hi ↦ hx.masked.newByte?_eq hi) hbyte
    refine ⟨u, hu, hover, fun {a} ha i hi hnone ↦ ?_⟩
    obtain ⟨f, hf⟩ := hx.exists_form hi
    rw [hrd ha, if_pos (by rwa [hx.size_eq]), concretePick, byteAt, hf]
    cases f with
    | concrete =>
      rw [Option.map_some, Option.getD_some, Assignment.val_eq (Assignment.eval_word ..),
        Nat.mod_eq_of_lt (UInt8.toNat_lt _)]
    | symbolic e =>
      rw [symbolicPick, hf] at hnone
      cases hnone
    | flushed =>
      rw [hu₀]
      rfl
  · rename_i hup
    refine ⟨_, rfl, Updates.over_base (hS _ _), fun {a} _ i hi hnone ↦ ?_⟩
    obtain ⟨f, hf⟩ := hx.exists_form hi
    rw [ownArray, Assignment.rd_constant _ (by rwa [hx.size_eq]), byteAt, hf]
    cases f with
    | concrete => rfl
    | symbolic e =>
      rw [symbolicPick, hf] at hnone
      cases hnone
    | flushed =>
      have := hx.flushed i hf
      rw [hup] at this
      cases this

theorem flushedUpdates_eq (x : ObjectState) : x.flushedUpdates = (do
    let u ← lowerLayer x
    match x.table with
    | some table => u.overlay x.newTerm? table.size
    | none => return u) := by
  rw [flushedUpdates, lowerLayer]
  cases x.updates? <;> rfl

theorem Proper.exists_flushedUpdates (hS : ∀ name bytes, S (.constant name bytes))
    (hx : x.Proper S) : ∃ u, x.flushedUpdates = .ok u ∧ u.Over S ∧
      ∀ {a : Assignment}, a.free → ∀ i < x.object.size, a.rd u i = byteAt a x i := by
  obtain ⟨u, hu, hover, hbelow⟩ := hx.exists_lowerLayer hS
  rw [flushedUpdates_eq, hu, Checked.ok_bind]
  cases ht : x.table with
  | none =>
    refine ⟨u, rfl, hover, fun ha i hi ↦ hbelow ha i hi ?_⟩
    exact hx.masked.symbolicPick_of_no_table ht (by rwa [hx.size_eq])
  | some table =>
    have hsize : table.size = x.bytes.size := hx.masked.table table ht
    have hsmall : table.size ≤ 2 ^ 32 := by
      rw [hsize, hx.size_eq]
      exact hx.small
    have hterm : ∀ i < table.size, ∀ e, symbolicPick x i = some e → e.Over S ∧ e.width = 8 := by
      intro i _ e he
      unfold symbolicPick at he
      split at he
      · obtain rfl := Option.some.inj he
        exact hx.symbolic i _ ‹_›
      · cases he
    obtain ⟨u', hu', hover', hrd⟩ := Updates.exists_overlay hsmall hover
      (fun i hi ↦ hx.masked.newTerm?_eq (hsize ▸ hi)) hterm
    refine ⟨u', hu', hover', fun {a} ha i hi ↦ ?_⟩
    rw [hrd ha, if_pos (by rwa [hsize, hx.size_eq])]
    cases hpick : symbolicPick x i with
    | none => exact hbelow ha i hi hpick
    | some e =>
      unfold symbolicPick at hpick
      split at hpick
      · rename_i hf
        rw [byteAt, hf, ← Option.some.inj hpick]
        rfl
      · cases hpick

/-! ## Reads of single bytes -/

theorem addChecked_eq_ok {m n k : Nat} : addChecked m n = .ok k ↔ m + n < wordLimit ∧ m + n = k := by
  unfold addChecked
  split
  · simp_all
  · simp only [reduceCtorEq, false_iff]
    omega

theorem readByte_eq : x.readByte i = (do
    match ← x.form i with
    | .concrete =>
      match x.bytes[i]? with
      | some b => return .word b.toNat 8
      | none => throw .range
    | .symbolic e => return e
    | .flushed =>
      let u ← match x.updates? with
        | some u => pure u
        | none => x.flushedUpdates
      Expr.mkRead u (.word i 32)) := by
  unfold readByte form
  cases x.isConcrete i with
  | error fault => rfl
  | ok concrete =>
    cases concrete with
    | true => rfl
    | false =>
      cases x.isFlushed i with
      | error fault => rfl
      | ok flushed =>
        cases flushed with
        | true => rfl
        | false =>
          cases x.known? i with
          | error fault => rfl
          | ok e => cases e <;> rfl

theorem Proper.readByte_over (hx : x.Proper S) (h : x.readByte i = .ok e) :
    e.Over S ∧ e.width = 8 := by
  rw [readByte_eq] at h
  obtain ⟨f, hf, h⟩ := Checked.bind_eq_ok.1 h
  cases f with
  | concrete =>
    dsimp only at h
    split at h
    · obtain rfl := Checked.pure_eq_ok.1 h
      exact ⟨Expr.over_word _ (by decide) (by decide), rfl⟩
    · cases h
  | symbolic e' =>
    obtain rfl := Checked.pure_eq_ok.1 h
    exact hx.symbolic i e' hf
  | flushed =>
    obtain ⟨u, hu⟩ := Option.isSome_iff_exists.1 (hx.flushed i hf)
    simp only [hu, pure_bind] at h
    exact Updates.mkRead_over (hx.updates u hu) (Expr.over_word _ (by decide) (by decide)) h

theorem Proper.val_readByte (ha : a.free) (hx : x.Proper S) (hi : i < x.object.size)
    (h : x.readByte i = .ok e) : a.val e = byteAt a x i := by
  rw [readByte_eq] at h
  obtain ⟨f, hf, h⟩ := Checked.bind_eq_ok.1 h
  rw [byteAt, hf]
  cases f with
  | concrete =>
    dsimp only at h ⊢
    split at h
    · rename_i b hb
      obtain rfl := Checked.pure_eq_ok.1 h
      rw [hb, Assignment.val_eq (Assignment.eval_word ..), Nat.mod_eq_of_lt (UInt8.toNat_lt _)]
      rfl
    · cases h
  | symbolic e' =>
    obtain rfl := Checked.pure_eq_ok.1 h
    rfl
  | flushed =>
    obtain ⟨u, hu⟩ := Option.isSome_iff_exists.1 (hx.flushed i hf)
    simp only [hu, pure_bind] at h
    have hword : (Expr.word i 32).WellFormed := Expr.word_wellFormed _ (by decide) (by decide)
    rw [Updates.val_mkRead ha (hx.updates u hu).wellFormed hword h,
      Assignment.val_eq (Assignment.eval_word ..), Nat.mod_eq_of_lt (Nat.lt_of_lt_of_le hi hx.small), hu]
    rfl

theorem place_over {offset p : Expr} (ho : offset.Over S) (h : place offset i = .ok p) :
    p.Over S ∧ p.width = offset.width := by
  obtain ⟨c, hc, h⟩ := Checked.bind_eq_ok.1 h
  exact Expr.mkBinary_over ho (Expr.over_constant hc) h

theorem val_place {offset p : Expr} (ha : a.free) (ho : offset.WellFormed)
    (hlt : a.val offset + i < 2 ^ offset.width) (h : place offset i = .ok p) :
    a.val p = a.val offset + i := by
  obtain ⟨c, hc, h⟩ := Checked.bind_eq_ok.1 h
  have hcw := (Expr.over_constant (S := fun _ ↦ True) hc).wellFormed
  obtain ⟨-, rfl⟩ := Expr.constant_eq_ok.1 hc
  rw [Expr.val_mkBinary ha ho hcw h, BinOp.fold_add, Assignment.val_eq (Assignment.eval_word ..),
    Nat.mod_eq_of_lt (by omega : i < 2 ^ offset.width), Nat.mod_eq_of_lt hlt]

variable (hS : ∀ name bytes, S (.constant name bytes))
include hS

theorem Proper.readByteAt_over {offset : Expr} (hx : x.Proper S) (ho : offset.Over S)
    (h : x.readByteAt offset = .ok e) : e.Over S ∧ e.width = 8 := by
  obtain ⟨index, hindex, h⟩ := Checked.bind_eq_ok.1 h
  obtain ⟨u, hu, h⟩ := Checked.bind_eq_ok.1 h
  obtain ⟨u', hu', hover, -⟩ := hx.exists_flushedUpdates hS
  obtain rfl : u = u' := Except.ok.inj (hu.symm.trans hu')
  exact Updates.mkRead_over hover (Expr.mkZext_over ho hindex).1 h

theorem Proper.val_readByteAt {offset : Expr} (ha : a.free) (hx : x.Proper S) (ho : offset.Over S)
    (hi : a.val offset < x.object.size) (h : x.readByteAt offset = .ok e) :
    a.val e = byteAt a x (a.val offset) := by
  obtain ⟨index, hindex, h⟩ := Checked.bind_eq_ok.1 h
  obtain ⟨u, hu, h⟩ := Checked.bind_eq_ok.1 h
  obtain ⟨u', hu', hover, hrd⟩ := hx.exists_flushedUpdates hS
  obtain rfl : u = u' := Except.ok.inj (hu.symm.trans hu')
  rw [Updates.val_mkRead ha hover.wellFormed (Expr.mkZext_over ho hindex).1.wellFormed h,
    Expr.val_mkZext ha ho.wellFormed hindex, Nat.mod_eq_of_lt (Nat.lt_of_lt_of_le hi hx.small),
    hrd ha _ hi]

theorem Proper.readByteAfter_over {offset : Expr} (hx : x.Proper S) (ho : offset.Over S)
    (h : x.readByteAfter offset i = .ok e) : e.Over S ∧ e.width = 8 := by
  unfold readByteAfter at h
  split at h
  · obtain ⟨n, -, h⟩ := Checked.bind_eq_ok.1 h
    exact hx.readByte_over h
  · obtain ⟨p, hp, h⟩ := Checked.bind_eq_ok.1 h
    exact hx.readByteAt_over hS (place_over ho hp).1 h

theorem Proper.val_readByteAfter {offset : Expr} (ha : a.free) (hx : x.Proper S)
    (ho : offset.Over S) (hw : offset.width = 64) (hi : a.val offset + i < x.object.size)
    (h : x.readByteAfter offset i = .ok e) : a.val e = byteAt a x (a.val offset + i) := by
  unfold readByteAfter at h
  split at h
  · rename_i base hbase
    obtain ⟨n, hn, h⟩ := Checked.bind_eq_ok.1 h
    obtain ⟨-, rfl⟩ := addChecked_eq_ok.1 hn
    rw [Expr.value?_eq_some] at hbase
    have hval : a.val offset = base := by rw [hbase, Assignment.val_const]
    rw [hval] at hi ⊢
    exact hx.val_readByte ha hi h
  · obtain ⟨p, hp, h⟩ := Checked.bind_eq_ok.1 h
    have hsmall := hx.small
    have hval : a.val p = a.val offset + i := val_place ha ho.wellFormed (by rw [hw]; omega) hp
    rw [← hval] at hi ⊢
    exact hx.val_readByteAt hS ha (place_over ho hp).1 hi h

omit hS

/-! ## Writes of single bytes -/

/-- The contents `y` are those of `x` but for the form `f` of the byte at `i`. -/
structure Updated (x y : ObjectState) (i : Nat) (f : ByteForm) : Prop where
  object_eq : y.object = x.object
  readOnly_eq : y.readOnly = x.readOnly
  size_eq : y.bytes.size = x.bytes.size
  masked : y.Masked
  updates_eq : y.updates? = x.updates?
  form_self : y.form i = .ok f
  form_ne : ∀ j < x.bytes.size, j ≠ i → y.form j = x.form j
  byte_ne : ∀ j, j ≠ i → y.bytes[j]? = x.bytes[j]?

theorem Updated.proper (h : Updated x y i f) (hx : x.Proper S) (hf : f ≠ .flushed)
    (hsym : ∀ e, f = .symbolic e → e.Over S ∧ e.width = 8) : y.Proper S := by
  have hrange : ∀ {j g}, y.form j = .ok g → g ≠ .concrete → j < x.bytes.size := fun hg hne ↦
    h.size_eq ▸ h.masked.lt_of_form hg hne
  refine ⟨by rw [h.size_eq, h.object_eq, hx.size_eq], by rw [h.object_eq]; exact hx.small, h.masked,
    ?_, ?_, ?_⟩
  · intro j e he
    by_cases hj : j = i
    · rw [hj, h.form_self, Except.ok.injEq] at he
      exact hsym e he
    · rw [h.form_ne j (hrange he (by simp)) hj] at he
      exact hx.symbolic j e he
  · intro u hu
    rw [h.updates_eq] at hu
    exact hx.updates u hu
  · intro j hj'
    by_cases hj : j = i
    · rw [hj, h.form_self, Except.ok.injEq] at hj'
      exact (hf hj').elim
    · rw [h.form_ne j (hrange hj' (by simp)) hj] at hj'
      rw [h.updates_eq]
      exact hx.flushed j hj'

theorem Updated.byteAt_ne (h : Updated x y i f) (hj : j < x.bytes.size)
    (hne : j ≠ i) : byteAt a y j = byteAt a x j := by
  rw [byteAt, byteAt, h.form_ne j hj hne, h.updates_eq, h.byte_ne j hne]

theorem Updated.readByte_ne (h : Updated x y i f)
    (hflushed : ∀ j, x.form j = .ok .flushed → x.updates?.isSome) (hj : j < x.bytes.size)
    (hne : j ≠ i) : y.readByte j = x.readByte j := by
  rw [readByte_eq, readByte_eq, h.form_ne j hj hne, h.byte_ne j hne, h.updates_eq]
  cases hform : x.form j with
  | error fault => rfl
  | ok g =>
    cases g with
    | concrete => rfl
    | symbolic e => rfl
    | flushed =>
      obtain ⟨u, hu⟩ := Option.isSome_iff_exists.1 (hflushed j hform)
      simp only [hu]

theorem updated_of_marks (hx : x.Masked) (hobject : y.object = x.object)
    (hreadOnly : y.readOnly = x.readOnly) (hsize : y.bytes.size = x.bytes.size)
    (hupdates : y.updates? = x.updates?) (hbyte : ∀ j, j ≠ i → y.bytes[j]? = x.bytes[j]?)
    (hconcrete : ∀ m, y.concreteMask = some m → m.size = x.bytes.size)
    (hflushed : ∀ m, y.flushedMask = some m → m.size = x.bytes.size)
    (htable : ∀ t, y.table = some t → t.size = x.bytes.size) (hself : y.MarkedAs i f)
    (hother : ∀ j < x.bytes.size, j ≠ i → y.isConcrete j = x.isConcrete j ∧
      y.isFlushed j = x.isFlushed j ∧ y.known? j = x.known? j) : Updated x y i f where
  object_eq := hobject
  readOnly_eq := hreadOnly
  size_eq := hsize
  updates_eq := hupdates
  form_self := form_of_marked hself
  byte_ne := hbyte
  form_ne j hj hne := by
    obtain ⟨hc, hf, hk⟩ := hother j hj hne
    rw [form, form, hc, hf, hk]
  masked := by
    refine ⟨hsize ▸ hconcrete, hsize ▸ hflushed, hsize ▸ htable, fun j hj ↦ ?_⟩
    by_cases hne : j = i
    · exact ⟨f, hne ▸ hself⟩
    · obtain ⟨g, hg⟩ := hx.marked j (hsize ▸ hj)
      obtain ⟨hc, hf, hk⟩ := hother j (hsize ▸ hj) hne
      exact ⟨g, hc ▸ hg.concrete, hf ▸ hg.flushed, hk ▸ hg.known⟩

theorem size_map_set {α : Type} {mask : Option (Array α)} {n : Nat} {b : α}
    (hmask : ∀ m, mask = some m → m.size = n) :
    ∀ m, mask.map (·.setIfInBounds i b) = some m → m.size = n := by
  intro m hm
  obtain ⟨m, hmask', rfl⟩ := Option.map_eq_some_iff.1 hm
  rw [Array.size_setIfInBounds, hmask m hmask']

theorem updated_of_writeByte {b : UInt8} (hx : x.Masked) (h : x.writeByte i b = .ok y) :
    Updated x y i .concrete ∧ y.bytes[i]? = some b := by
  unfold ObjectState.writeByte at h
  split at h
  · rename_i hi
    obtain rfl := Except.ok.inj h
    refine ⟨updated_of_marks hx rfl rfl (by simp) rfl (fun j hj ↦ ?_) (size_map_set hx.concreteMask)
      (size_map_set hx.flushedMask) (size_map_set hx.table) ⟨?_, ?_, ?_⟩ fun j _ hj ↦ ⟨?_, ?_, ?_⟩, ?_⟩
    · simp [Bytes.getElem?_set, Ne.symm hj]
    · exact entry_set_self hx.concreteMask hi
    · exact entry_set_self hx.flushedMask hi
    · exact entry_set_self hx.table hi
    · exact entry_set_ne hj
    · exact entry_set_ne hj
    · exact entry_set_ne hj
    · simp [Bytes.getElem?_set]
  · cases h

theorem updated_of_writeSymbolicByte (hx : x.Masked) (h : x.writeSymbolicByte i e = .ok y) :
    Updated x y i (.symbolic e) := by
  obtain ⟨_, hi, h⟩ := Checked.bind_eq_ok.1 h
  rw [demand_eq_ok] at hi
  obtain rfl := Checked.pure_eq_ok.1 h
  refine updated_of_marks hx rfl rfl rfl rfl (fun _ _ ↦ rfl) ?_ (size_map_set hx.flushedMask) ?_
    ⟨?_, ?_, ?_⟩ fun j hj hne ↦ ⟨?_, ?_, ?_⟩
  · intro m hm
    rw [← Option.some.inj hm, Array.size_setIfInBounds]
    exact size_getD hx.concreteMask
  · intro t ht
    rw [← Option.some.inj ht, Array.size_setIfInBounds]
    exact size_getD hx.table
  · exact entry_insert_self hx.concreteMask hi
  · exact entry_set_self hx.flushedMask hi
  · exact entry_insert_self hx.table hi
  · exact entry_insert_ne hne hj
  · exact entry_set_ne hne
  · exact entry_insert_ne hne hj

/-- The contents `y` differ from `x` at most in the byte at `i`, which has the value of `e`. -/
structure Wrote (a : Assignment) (x y : ObjectState) (i : Nat) (e : Expr) : Prop where
  object_eq : y.object = x.object
  readOnly_eq : y.readOnly = x.readOnly
  byteAt_eq : ∀ j < x.object.size, byteAt a y j = if j = i then a.val e else byteAt a x j

theorem exists_write8 (hi : i < x.size) (e : Expr) : ∃ y, x.write8 i e = .ok y := by
  unfold write8
  split
  · exact ⟨_, dif_pos hi⟩
  · rw [writeSymbolicByte, demand_of hi]
    exact ⟨_, rfl⟩

theorem exists_updated_of_write8 (hx : x.Masked) (h : x.write8 i e = .ok y) :
    ∃ f, Updated x y i f ∧ (f = .symbolic e ∨ f = .concrete ∧ ∃ v, e.value? = some v ∧
      y.bytes[i]? = some v.toUInt8) := by
  unfold ObjectState.write8 at h
  split at h
  · rename_i v hv
    obtain ⟨hup, hbyte⟩ := updated_of_writeByte hx h
    exact ⟨_, hup, .inr ⟨rfl, v, hv, hbyte⟩⟩
  · exact ⟨_, updated_of_writeSymbolicByte hx h, .inl rfl⟩

theorem wrote_of_write8 (hsize : x.bytes.size = x.object.size) (hx : x.Masked) (he : e.WellFormed)
    (hw : e.width = 8) (ha : a.free) (h : x.write8 i e = .ok y) : Wrote a x y i e := by
  obtain ⟨f, hup, hf⟩ := exists_updated_of_write8 hx h
  refine ⟨hup.object_eq, hup.readOnly_eq, fun j hj ↦ ?_⟩
  rw [← hsize] at hj
  split
  · rename_i hji
    obtain rfl | ⟨rfl, v, hv, hbyte⟩ := hf
    · rw [hji, byteAt, hup.form_self]
    · have hlt := a.val_lt ha he
      rw [Expr.value?_eq_some] at hv
      have hval : a.val e = v := by rw [hv, Assignment.val_const]
      rw [hval, hw] at hlt
      rw [hji, byteAt, hup.form_self, hbyte, hval]
      simpa using hlt
  · exact hup.byteAt_ne hj ‹_›

theorem Proper.write8 (hx : x.Proper S) (he : e.Over S) (hw : e.width = 8)
    (h : x.write8 i e = .ok y) :
    y.Proper S ∧ ∀ {a : Assignment}, a.free → Wrote a x y i e := by
  refine ⟨?_, fun ha ↦ wrote_of_write8 hx.size_eq hx.masked he.wellFormed hw ha h⟩
  obtain ⟨f, hup, rfl | ⟨rfl, -⟩⟩ := exists_updated_of_write8 hx.masked h
  · exact hup.proper hx (by simp) (by simpa using ⟨he, hw⟩)
  · exact hup.proper hx (by simp) (by simp)

include hS in
theorem Proper.writeByteAt {offset : Expr} (hx : x.Proper S) (ho : offset.Over S) (he : e.Over S)
    (h : x.writeByteAt offset e = .ok y) :
    y.Proper S ∧ ∀ {a : Assignment}, a.free → a.val offset < x.object.size →
      Wrote a x y (a.val offset) e := by
  obtain ⟨u, hu, h⟩ := Checked.bind_eq_ok.1 h
  obtain ⟨index, hindex, h⟩ := Checked.bind_eq_ok.1 h
  obtain ⟨u₁, hu₁, h⟩ := Checked.bind_eq_ok.1 h
  obtain rfl := Checked.pure_eq_ok.1 h
  obtain ⟨u', hu', hover, hrd⟩ := hx.exists_flushedUpdates hS
  obtain rfl : u = u' := Except.ok.inj (hu.symm.trans hu')
  have hflushed := allFlushed_flushedTo x u₁
  refine ⟨⟨hx.size_eq, hx.small, hflushed.masked, ?_, ?_, fun _ _ ↦ rfl⟩,
    fun {a} ha hi ↦ ⟨rfl, rfl, fun j hj ↦ ?_⟩⟩
  · intro j e' he'
    cases (hflushed.form_eq he').2
  · rintro _ ⟨⟩
    exact Updates.extend_over hover (Expr.mkZext_over ho hindex).1 he hu₁
  · have hval : a.val index = a.val offset := by
      rw [Expr.val_mkZext ha ho.wellFormed hindex, Nat.mod_eq_of_lt (Nat.lt_of_lt_of_le hi hx.small)]
    have hbyte := Updates.rd_extend ha hu₁ j
    rw [hval, hrd ha j hj] at hbyte
    have hlt : j < x.bytes.size := by rwa [hx.size_eq]
    rw [byteAt, form_of_marked (hflushed.marked hlt)]
    simpa [flushedTo, eq_comm] using hbyte

end ObjectState

end Symex
