import Symex.Proofs.Guidance.Terms

namespace Symex

open Checked Bits

variable {L M : Likeness}

/-- The byte at `m` is the same under assignments that are alike. -/
def Updates.SameAt (L : Likeness) (u : Updates) (m : Nat) : Prop :=
  ∀ ⦃a b : Assignment⦄, L.like a b → a.rd u m = b.rd u m

namespace Updates

variable {u u' : Updates} {i e : Expr} {m n : Nat}

theorem SameAt.extend (hu : u.SameAt L m) (hi : i.Determined L) (he : e.Determined L)
    (h : u.extend i e = .ok u') : u'.SameAt L m := fun a b hab ↦ by
  rw [rd_extend (L.free hab).1 h, rd_extend (L.free hab).2 h, hi.val_eq hab, he.val_eq hab, hu hab]

theorem sameAt_extendAt (he : e.Determined L) (h : u.extendAt n e = .ok u')
    (hm : u.SameAt L m ∨ n % 2 ^ 32 = m) : u'.SameAt L m := fun a b hab ↦ by
  rw [rd_extend (L.free hab).1 h, rd_extend (L.free hab).2 h, Assignment.val_word, Assignment.val_word,
    he.val_eq hab]
  obtain hu | rfl := hm
  · rw [hu hab]
  · rw [if_pos rfl, if_pos rfl]

theorem sameAt_overlay {pick : Nat → Checked (Option Expr)} {byte : Nat → Option Expr}
    (hpick : ∀ i < n, pick i = .ok (byte i)) (hbyte : ∀ i < n, ∀ e, byte i = some e → e.Determined L)
    (h : u.overlay pick n = .ok u') (hm : u.SameAt L m ∨ ∃ i < n, i % 2 ^ 32 = m ∧ (byte i).isSome) :
    u'.SameAt L m := by
  induction n generalizing u' with
  | zero =>
    obtain rfl := Except.ok.inj h
    exact hm.resolve_right (by simp)
  | succ n ih =>
    rw [overlay_succ, bind_eq_ok] at h
    obtain ⟨v, hv, h⟩ := h
    rw [hpick n (by omega), ok_bind] at h
    have hbefore : (u.SameAt L m ∨ ∃ i < n, i % 2 ^ 32 = m ∧ (byte i).isSome) → v.SameAt L m :=
      ih (fun i hi ↦ hpick i (by omega)) (fun i hi ↦ hbyte i (by omega)) hv
    -- the last write is the one meant, or the byte was determined before it
    have hcases : v.SameAt L m ∨ n % 2 ^ 32 = m ∧ (byte n).isSome := by
      obtain hm | ⟨i, hi, him, hsome⟩ := hm
      · exact .inl (hbefore (.inl hm))
      · obtain hlt | rfl := Nat.lt_succ_iff_lt_or_eq.1 hi
        · exact .inl (hbefore (.inr ⟨i, hlt, him, hsome⟩))
        · exact .inr ⟨him, hsome⟩
    cases hb : byte n with
    | none =>
      rw [hb] at h
      obtain rfl := pure_eq_ok.1 h
      exact hcases.resolve_right (by simp [hb])
    | some e =>
      rw [hb] at h
      exact sameAt_extendAt (hbyte n (by omega) e hb) h (hcases.imp_right And.left)

end Updates

namespace ObjectState

variable {x y z : ObjectState} {e offset value : Expr} {i m : Nat}

theorem Formed.lt_of_readByte (hx : x.Formed) (h : x.readByte i = .ok e) : i < x.size := by
  obtain ⟨f, hf, hread⟩ := bind_eq_ok.1 (readByte_eq (x := x) (i := i) ▸ h)
  cases f with
  | concrete =>
    refine Nat.lt_of_not_le fun hge ↦ ?_
    have hnone : x.bytes[i]? = none := getElem?_neg x.bytes i (Nat.not_lt.2 hge)
    dsimp only at hread
    rw [hnone] at hread
    cases hread
  | symbolic e' => exact hx.masked.lt_of_form hf (by simp)
  | flushed => exact hx.masked.lt_of_form hf (by simp)

theorem Formed.wellFormed (hx : x.Formed) : x.WellFormed where
  table t ht e he := by
    obtain ⟨i, hi, he⟩ := Array.mem_iff_getElem.1 he
    obtain ⟨f, hf⟩ := hx.masked.marked i (hx.masked.table t ht ▸ hi)
    have hknown : x.known? i = .ok (some e) := by
      rw [known?, ht, entry, Array.getElem?_eq_getElem hi, he]
    have hterm := hf.known.symm.trans hknown
    cases f with
    | concrete => cases hterm
    | flushed => cases hterm
    | symbolic e' =>
      cases hterm
      exact (hx.symbolic i e (form_of_marked hf)).1
  updates := hx.updates

/-- Every byte is determined. -/
structure Determined (L : Likeness) (x : ObjectState) : Prop where
  formed : x.Formed
  size_eq : x.size = x.object.size
  bytes : ∀ i e, x.readByte i = .ok e → e.Determined L

theorem Determined.mono (hx : x.Determined M) (hle : L ≤ M) : x.Determined L :=
  ⟨hx.formed, hx.size_eq, fun i e he ↦ (hx.bytes i e he).mono hle⟩

theorem Determined.of_owner (hx : x.Determined L) (n : Nat) :
    ({ x with owner := n } : ObjectState).Determined L :=
  ⟨hx.formed.of_owner n, hx.size_eq, hx.bytes⟩

theorem Determined.of_readOnly (hx : x.Determined L) (b : Bool) :
    ({ x with readOnly := b } : ObjectState).Determined L :=
  ⟨⟨hx.formed.masked.congr rfl rfl rfl rfl, hx.formed.symbolic, hx.formed.updates, hx.formed.flushed⟩,
    hx.size_eq, hx.bytes⟩

/-! ## New contents -/

theorem determined_of_concrete {object : MemoryObject} {bytes : ByteArray} (hsize : bytes.size = object.size) :
    ({ object, bytes } : ObjectState).Determined L := by
  refine ⟨⟨masked_of_none rfl rfl rfl, nofun, nofun, nofun⟩, hsize, fun i e he ↦ ?_⟩
  rw [readByte_eq, form_of_no_mask rfl, ok_bind] at he
  dsimp only at he
  split at he
  · obtain rfl := pure_eq_ok.1 he
    exact Expr.determined_word _ (by decide) (by decide)
  · cases he

theorem meets_zeroed (object : MemoryObject) : Meets (zeroed object) fun x ↦
    x.Determined L ∧ x.object = object :=
  ends_bind (P := fun _ ↦ True) (ends_true_iff.2 fun _ _ ↦ trivial) fun _ _ ↦
    ends_pure ⟨determined_of_concrete (Bytes.size_zeros _), rfl⟩

theorem meets_withBytes (object : MemoryObject) (bytes : ByteArray) : Meets (withBytes object bytes) fun x ↦
    x.Determined L ∧ x.object = object :=
  ends_bind (P := fun _ ↦ bytes.size = object.size) (ends_demand (fun _ ↦ trivial) id) fun _ hsize ↦
    ends_pure ⟨determined_of_concrete hsize, rfl⟩

theorem AllFlushed.formed (h : x.AllFlushed) (hu : ∀ u, x.updates? = some u → u.WellFormed)
    (hsome : x.updates?.isSome) : x.Formed where
  masked := h.masked
  symbolic i e he := by cases (h.form_eq he).2
  updates := hu
  flushed _ _ := hsome

theorem AllFlushed.of_readByte {u : Updates} (h : x.AllFlushed) (hu : x.updates? = some u)
    (he : x.readByte i = .ok e) : i < x.size ∧ Expr.mkRead u (.word i 32) = .ok e := by
  rw [readByte_eq, bind_eq_ok] at he
  obtain ⟨f, hf, he⟩ := he
  obtain ⟨hi, rfl⟩ := h.form_eq hf
  rw [hu] at he
  exact ⟨hi, he⟩

theorem meets_ofArray (object : MemoryObject) {A : NamedArray}
    (hA : ∀ ⦃a b⦄, L.like a b → ∀ i < object.size, a.byte? A i = b.byte? A i) :
    Meets (ofArray object A) fun x ↦ x.Determined L ∧ x.object = object := by
  refine ends_true_iff.2 fun x h ↦ ?_
  obtain ⟨hflushed, rfl, hsize, hu⟩ := allFlushed_ofArray h
  refine ⟨⟨hflushed.formed (by simp [hu, Updates.WellFormed]) (by rw [hu]; rfl), hsize, fun i e he ↦ ?_⟩, rfl⟩
  obtain ⟨hi, hread⟩ := hflushed.of_readByte hu he
  have hword := Expr.determined_word (L := L) i (w := 32) (by decide) (by decide)
  refine (hword.mkRead (by simp only [Updates.WellFormed]) fun {a b} hab ↦ ?_).of_eq hread
  rw [Assignment.rd, Assignment.rd, Assignment.evalRead_base, Assignment.evalRead_base,
    hword.val_eq hab, Assignment.val_word,
    hA hab _ (Nat.lt_of_le_of_lt (Nat.mod_le _ _) (hsize ▸ hi))]

/-! ## All bytes as one array -/

section

variable (hx : x.Determined L)
include hx

theorem Determined.sameAt_flushed {u : Updates} (h : x.flushedUpdates = .ok u) (hm : m < x.size)
    (hsmall : m < 2 ^ 32) : u.SameAt L m := by
  have hmasked := hx.formed.masked
  have hown : (Updates.base x.ownArray).SameAt L m := fun a b _ ↦ by
    rw [ownArray, Assignment.rd_constant _ hm, Assignment.rd_constant _ hm]
  have hmod : m % 2 ^ 32 = m := Nat.mod_eq_of_lt hsmall
  have hsym : ∀ i < x.size, ∀ e, symbolicPick x i = some e → e.Determined L := by
    intro i _ e he
    unfold symbolicPick at he
    split at he
    · rename_i hf
      obtain rfl := Option.some.inj he
      refine hx.bytes i _ ?_
      rw [readByte_eq, hf]
      rfl
    · cases he
  have hconc : ∀ i < x.size, ∀ e, concretePick x i = some e → e.Determined L := by
    intro i _ e he
    unfold concretePick at he
    split at he
    · obtain rfl := Option.some.inj he
      exact Expr.determined_word _ (by decide) (by decide)
    · cases he
  obtain ⟨f, hform⟩ := hmasked.exists_form hm
  rw [flushedUpdates_eq, bind_eq_ok] at h
  obtain ⟨lower, hlower, h⟩ := h
  -- below the symbolic bytes, the others are determined
  have hbelow : (∀ e, f ≠ .symbolic e) → lower.SameAt L m := by
    intro hne
    unfold lowerLayer at hlower
    split at hlower
    · rename_i u₀ hu₀
      refine Updates.sameAt_overlay (fun i hi ↦ hmasked.newByte?_eq hi) hconc hlower ?_
      cases f with
      | symbolic e => exact (hne e rfl).elim
      | concrete =>
        refine .inr ⟨m, hm, hmod, ?_⟩
        rw [concretePick, hform]
        rfl
      | flushed =>
        refine .inl fun a b hab ↦ ?_
        -- the read of the flushed byte tells what is below
        have hword : (Expr.word m 32).WellFormed := Expr.word_wellFormed _ (by decide) (by decide)
        have hread : x.readByte m = Expr.mkRead u₀ (.word m 32) := by
          rw [readByte_eq, hform, ok_bind]
          simp only [hu₀, pure_bind]
        obtain ⟨e, he⟩ := hx.formed.exists_readByte hm
        have hval {c : Assignment} (hc : c.free = true) : c.val e = c.rd u₀ m := by
          rw [Updates.val_mkRead hc (hx.formed.updates u₀ hu₀) hword (hread ▸ he), Assignment.val_word, hmod]
        rw [← hval (L.free hab).1, ← hval (L.free hab).2, (hx.bytes m e he).val_eq hab]
    · obtain rfl := pure_eq_ok.1 hlower
      exact hown
  have hpick : (∀ e, f ≠ .symbolic e) ∨ (symbolicPick x m).isSome := by
    rw [symbolicPick, hform]
    cases f <;> simp
  split at h
  · rename_i table ht
    rw [hmasked.table table ht] at h
    exact Updates.sameAt_overlay (fun i hi ↦ hmasked.newTerm?_eq hi) hsym h
      (hpick.imp hbelow fun hsome ↦ ⟨m, hm, hmod, hsome⟩)
  · rename_i ht
    obtain rfl := pure_eq_ok.1 h
    refine hbelow (hpick.resolve_right ?_)
    rw [hmasked.symbolicPick_of_no_table ht hm]
    simp

theorem Determined.flushed_wellFormed {u : Updates} (h : x.flushedUpdates = .ok u) : u.WellFormed :=
  hx.formed.wellFormed.safe_flushedUpdates.of_eq h

/-! ## Reads -/

omit hx in
theorem meets_place (ho : offset.Determined L) (i : Nat) : Meets (place offset i) fun p ↦
    p.Determined L ∧ ∀ a : Assignment, a.free = true → a.val p ≤ a.val offset + i := by
  refine ends_true_iff.2 fun p hp ↦ ?_
  obtain ⟨c, hc, h⟩ := bind_eq_ok.1 hp
  obtain ⟨hdet, hw⟩ := (Expr.meets_constant (L := L) i offset.width).of_eq hc
  refine ⟨((ho.mkBinary .add hdet).of_eq h).1, fun a ha ↦ ?_⟩
  obtain ⟨-, rfl⟩ := Expr.constant_eq_ok.1 hc
  rw [Expr.val_mkBinary ha ho.wellFormed hdet.wellFormed h, BinOp.fold_add, Assignment.val_word]
  exact Nat.le_trans (Nat.mod_le _ _) (Nat.add_le_add_left (Nat.mod_le _ _) _)

theorem Determined.readByteAt (ho : offset.Determined L)
    (hin : ∀ ⦃a b⦄, L.like a b → a.val offset < x.size) :
    Meets (x.readByteAt offset) (Expr.Determined L) := by
  refine ends_true_iff.2 fun e he ↦ ?_
  obtain ⟨index, hindex, h⟩ := bind_eq_ok.1 he
  obtain ⟨u, hu, h⟩ := bind_eq_ok.1 h
  refine (((ho.mkZext 32).of_eq hindex).1.mkRead (hx.flushed_wellFormed hu) fun {a b} hab ↦ ?_).of_eq h
  rw [((ho.mkZext 32).of_eq hindex).1.val_eq hab, Expr.val_mkZext (L.free hab).2 ho.wellFormed hindex,
    ← ho.val_eq hab]
  exact hx.sameAt_flushed hu (Nat.lt_of_le_of_lt (Nat.mod_le _ _) (hin hab))
    (Nat.mod_lt _ (by decide)) hab

theorem Determined.readByteAfter (ho : offset.Determined L)
    (hin : ∀ ⦃a b⦄, L.like a b → a.val offset + i < x.size) :
    Meets (x.readByteAfter offset i) (Expr.Determined L) := by
  unfold ObjectState.readByteAfter
  split
  · exact ends_bind (P := fun _ ↦ True) (ends_true_iff.2 fun _ _ ↦ trivial) fun n _ ↦
      ends_true_iff.2 fun e he ↦ hx.bytes n e he
  · refine ends_bind (meets_place ho i) fun p hp ↦ hx.readByteAt hp.1 fun a b hab ↦ ?_
    exact Nat.lt_of_le_of_lt (hp.2 a (L.free hab).1) (hin hab)

theorem Determined.read (ho : offset.Determined L) (w : Nat)
    (hin : ∀ ⦃a b⦄, L.like a b → ∀ i < byteCount w, a.val offset + i < x.size) :
    Meets (x.read offset w) (Expr.Determined L) := by
  rw [read_eq]
  refine ends_bind (P := fun _ ↦ True) (ends_true_iff.2 fun _ _ ↦ trivial) fun _ _ ↦ ?_
  refine ends_bind (P := (· = byteCount w)) (ends_bind (P := fun _ ↦ True)
    (ends_true_iff.2 fun _ _ ↦ trivial) fun _ _ ↦ ends_pure rfl) fun n hn ↦ ?_
  refine ends_bind (P := fun low : Option Expr ↦ ∀ e, low = some e → e.Determined L)
    (ends_foldlM (by simp) fun i hi low hlow ↦ ?_) fun low hlow ↦ ?_
  · rw [hn, List.mem_range] at hi
    refine ends_bind (hx.readByteAfter ho fun a b hab ↦ hin hab i hi) fun byte hbyte ↦ ?_
    cases low with
    | none => exact ends_pure (by simpa using hbyte)
    | some low =>
      exact ends_bind (hbyte.mkConcat (hlow low rfl)) fun e he ↦ ends_pure (by simpa using he)
  · refine (Expr.Determined.mkExtract 0 w ?_).mono fun _ h ↦ h.1
    cases low with
    | none => exact Expr.determined_word _ (by decide) (by decide)
    | some low => exact hlow low rfl

/-! ## Writes -/

theorem Determined.of_written (h : Written x y i e) (he : e.Determined L) : y.Determined L := by
  refine ⟨h.formed, ?_, fun j e' hj ↦ ?_⟩
  · rw [h.size_eq, h.object_eq, hx.size_eq]
  · by_cases hji : j = i
    · rw [hji, h.readByte_self] at hj
      exact Except.ok.inj hj ▸ he
    · have hlt := h.formed.lt_of_readByte hj
      rw [h.readByte_ne j (h.size_eq ▸ hlt) hji] at hj
      exact hx.bytes j e' hj

theorem Determined.write8 (he : e.Determined L) (hw : e.width = 8) (i : Nat) :
    Meets (x.write8 i e) fun y ↦ y.Determined L ∧ y.object = x.object :=
  ends_true_iff.2 fun _ hy ↦
    have h := hx.formed.write8 he.wellFormed hw hy
    ⟨hx.of_written h he, h.object_eq⟩

omit hx in
theorem writeByte_eq (x : ObjectState) (i : Nat) (b : UInt8) :
    x.writeByte i b = x.write8 i (.word b.toNat 8) := by
  have hvalue : (Expr.word b.toNat 8).value? = some b.toNat :=
    Expr.value?_eq_some.2 (by rw [Expr.word, Bits.trunc_of_lt b.toNat_lt]; rfl)
  rw [ObjectState.write8, hvalue]
  simp

theorem Determined.writeByte (i : Nat) (b : UInt8) :
    Meets (x.writeByte i b) fun y ↦ y.Determined L ∧ y.object = x.object := by
  rw [writeByte_eq]
  exact hx.write8 (Expr.determined_word _ (by decide) (by decide)) rfl i

theorem Determined.writeByteAt (ho : offset.Determined L) (he : e.Determined L) :
    Meets (x.writeByteAt offset e) fun y ↦ y.Determined L ∧ y.object = x.object := by
  refine ends_true_iff.2 fun y hy ↦ ?_
  have hwf := (hx.formed.wellFormed.safe_writeByteAt ho.wellFormed he.wellFormed).of_eq hy
  obtain ⟨u, hu, h⟩ := bind_eq_ok.1 hy
  obtain ⟨index, hindex, h⟩ := bind_eq_ok.1 h
  obtain ⟨u', hu', h⟩ := bind_eq_ok.1 h
  obtain rfl := pure_eq_ok.1 h
  have hsame : ∀ {m : Nat}, m < x.size → m < 2 ^ 32 → u'.SameAt L m := fun hm hsmall ↦
    (hx.sameAt_flushed hu hm hsmall).extend ((ho.mkZext 32).of_eq hindex).1 he hu'
  have hflushed := allFlushed_flushedTo x u'
  refine ⟨⟨hflushed.formed hwf.updates rfl, hx.size_eq, fun i e' he' ↦ ?_⟩, rfl⟩
  obtain ⟨hi, hread⟩ := hflushed.of_readByte rfl he'
  have hword := Expr.determined_word (L := L) i (w := 32) (by decide) (by decide)
  refine (hword.mkRead (hwf.updates _ rfl) fun {a b} hab ↦ ?_).of_eq hread
  rw [hword.val_eq hab, Assignment.val_word]
  exact hsame (Nat.lt_of_le_of_lt (Nat.mod_le _ _) hi) (Nat.mod_lt _ (by decide)) hab

theorem Determined.writeAfter (ho : offset.Determined L) (he : e.Determined L) (hw : e.width = 8) (i : Nat) :
    Meets (x.writeAfter offset i e) fun y ↦ y.Determined L ∧ y.object = x.object := by
  unfold ObjectState.writeAfter
  split
  · exact ends_bind (P := fun _ ↦ True) (ends_true_iff.2 fun _ _ ↦ trivial) fun n _ ↦ hx.write8 he hw n
  · exact ends_bind (meets_place ho i) fun p hp ↦ hx.writeByteAt hp.1 he

theorem Determined.write (ho : offset.Determined L) (hvalue : value.Determined L) :
    Meets (x.write offset value) fun y ↦ y.Determined L ∧ y.object = x.object := by
  rw [write_eq]
  refine ends_bind (P := Expr.Determined L) ?_ fun whole hwhole ↦ ?_
  · unfold wholeBytes
    split
    · exact ends_pure hvalue
    · exact (hvalue.mkZext _).mono fun _ h ↦ h.1
  · refine ends_foldlM (P := fun y : ObjectState ↦ y.Determined L ∧ y.object = x.object) ⟨hx, rfl⟩ fun i _ y hy ↦ ?_
    refine ends_bind (hwhole.mkExtract (i * 8) 8) fun byte hbyte ↦ ?_
    exact (hy.1.writeAfter ho hbyte.1 hbyte.2 i).mono fun z hz ↦ ⟨hz.1, hz.2.trans hy.2⟩

end

end ObjectState

theorem Exec.meets_copyBytes {x y : ObjectState} {L : Likeness} (hx : x.Determined L) (hy : y.Determined L) :
    Meets (copyBytes x y) fun z ↦ z.Determined L ∧ z.object = y.object := by
  refine ends_foldlM (P := fun z : ObjectState ↦ z.Determined L ∧ z.object = y.object) ⟨hy, rfl⟩ fun i _ z hz ↦ ?_
  refine Checked.ends_bind (P := fun e ↦ e.Determined L ∧ e.width = 8)
    (ends_true_iff.2 fun e he ↦ ⟨hx.bytes i e he, (hx.formed.of_readByte he).2⟩) fun e he ↦ ?_
  exact (hz.1.write8 he.1 he.2 i).mono fun _ h ↦ ⟨h.1, h.2.trans hz.2⟩

/-! ## Selections -/

/-- Where assignments are alike, they are so for one of the two, and the condition tells which. -/
structure Likeness.Splits (L S T : Likeness) (c : Expr) : Prop where
  wellFormed : c.WellFormed
  like : ∀ ⦃a b⦄, L.like a b →
    a.val c ≠ 0 ∧ b.val c ≠ 0 ∧ S.like a b ∨ a.val c = 0 ∧ b.val c = 0 ∧ T.like a b

namespace Likeness.Splits

variable {S T : Likeness} {c ex ey e : Expr} {x y z : ObjectState} (h : L.Splits S T c)
include h

theorem picks (hp : Expr.Picks c ex ey e) (hx : ex.Determined S) (hy : ey.Determined T) : e.Determined L := by
  refine ⟨hp.wellFormed h.wellFormed hx.wellFormed hy.wellFormed, fun {a b} hab ↦ ?_⟩
  rw [hp.val_eq (L.free hab).1 h.wellFormed hx.wellFormed hy.wellFormed,
    hp.val_eq (L.free hab).2 h.wellFormed hx.wellFormed hy.wellFormed]
  obtain ⟨ha, hb, hlike⟩ | ⟨ha, hb, hlike⟩ := h.like hab
  · rw [if_neg ha, if_neg hb, hx.val_eq hlike]
  · rw [if_pos ha, if_pos hb, hy.val_eq hlike]

theorem merges (hm : ObjectState.Merges c x y z) (hx : x.Determined S) (hy : y.Determined T) :
    z.Determined L := by
  refine ⟨hm.formed, ?_, fun i e he ↦ ?_⟩
  · rw [hm.size_eq, hm.object_eq, hx.size_eq]
  · obtain ⟨ex, ey, ez, hex, hey, hez, hp⟩ := hm.picks i (hm.size_eq ▸ hm.formed.lt_of_readByte he)
    obtain rfl := Except.ok.inj (hez.symm.trans he)
    exact h.picks hp (hx.bytes i ex hex) (hy.bytes i ey hey)

end Likeness.Splits

end Symex
