import Mathlib.Data.List.Induction
import Std.Data.String.ToNat
import Symex.Proofs.Concretes
import Symex.Proofs.Denotation
import Symex.Proofs.Odometer
import Symex.Proofs.Smt.Logic

namespace Symex

open Smt

/-! ## Arrays under an assignment -/

/-- Indices have 32 bits, so no byte but zero lies past the last one. -/
def NamedArray.WellFormed (A : NamedArray) : Prop := ∀ i b, A.byte? i = some b → b ≠ 0 → i < 2 ^ 32

theorem Bytes.toList_loop (bytes : ByteArray) (i : Nat) (r : List UInt8) :
    ByteArray.toList.loop bytes i r = r.reverse ++ bytes.data.toList.drop i := by
  fun_induction ByteArray.toList.loop bytes i r with
  | case1 i r h ih =>
    have hi : i < bytes.data.toList.length := by simpa using h
    have hget : bytes.get! i = bytes.data.toList[i] := by
      simp only [ByteArray.get!]
      simp [h]
    rw [ih, List.reverse_cons, List.append_assoc, List.singleton_append, hget,
      List.drop_eq_getElem_cons hi]
  | case2 i r h =>
    rw [List.drop_eq_nil_of_le (by simpa using h), List.append_nil]

theorem Bytes.toList_eq (bytes : ByteArray) : bytes.toList = bytes.data.toList := by
  rw [ByteArray.toList, toList_loop]
  rfl

namespace Assignment

/-- The bytes that are given to the input called `name`, with zeros where there are none. -/
def input (a : Assignment) (name : String) (i : BitVec 32) : BitVec 8 :=
  (((a.get? name).bind (·[i.toNat]?)).getD 0).toBitVec

/-- The bytes of an array, with zeros where they are not known. -/
def contents (a : Assignment) (A : NamedArray) (i : BitVec 32) : BitVec 8 :=
  ((a.byte? A i.toNat).getD 0).toBitVec

/-- The array `f` after writes, of which the newest comes first. -/
def after (a : Assignment) (f : BitVec 32 → BitVec 8) : List (Expr × Expr) → BitVec 32 → BitVec 8
  | [] => f
  | (i, v) :: older =>
    Function.update (a.after f older) (BitVec.ofNat 32 (a.val i)) (BitVec.ofNat 8 (a.val v))

variable {a : Assignment}

theorem contents_of_isSymbolic {A : NamedArray} (hA : A.isSymbolic) :
    a.contents A = a.input A.name := by
  have hnone : A.contents = none := Option.isNone_iff_eq_none.1 hA
  funext i
  simp only [contents, input, byte?, NamedArray.byte?, hnone, Option.bind_none]
  split
  · rename_i b hb
    rw [hb]
  · rename_i hb
    rw [hb]
    split <;> rfl

theorem contents_of_table {A : NamedArray} {bytes : ByteArray} (hA : A.contents = some bytes)
    (ha : a.get? A.name = none) (i : BitVec 32) :
    a.contents A i = (bytes[i.toNat]?.getD 0).toBitVec := by
  simp only [contents, byte?, NamedArray.byte?, hA, ha, Option.bind_some, Option.bind_none]
  split
  · rename_i b hb
    rw [hb]
  · rename_i hb
    rw [hb]
    split <;> rfl

theorem evalRead_eq_after (ha : a.free) {u : Updates} (hu : u.WellFormed) (n : BitVec 32) :
    a.evalRead u n.toNat = some (a.after (a.contents u.root) u.writes n).toNat := by
  induction u with
  | base A =>
    obtain ⟨v, hv⟩ := exists_evalRead ha (.base A) n.toNat
    rw [evalRead_base, Option.map_eq_some_iff] at hv
    obtain ⟨b, hb, -⟩ := hv
    rw [evalRead_base, hb]
    change some b.toNat = some (a.contents A n).toNat
    rw [contents, hb]
    rfl
  | write i v older ih =>
    simp only [Updates.WellFormed] at hu
    obtain ⟨hi, hv, holder, hiw, hvw⟩ := hu
    have hi' := a.val_lt ha hi
    have hv' := a.val_lt ha hv
    rw [hiw] at hi'
    rw [hvw] at hv'
    refine evalRead_write.2 ⟨a.val i, a.eval_eq_val ha i, ?_⟩
    change _ = some (Function.update (a.after (a.contents older.root) older.writes)
      (BitVec.ofNat 32 (a.val i)) (BitVec.ofNat 8 (a.val v)) n).toNat
    by_cases hn : a.val i = n.toNat
    · have hn' : n = BitVec.ofNat 32 (a.val i) := by rw [hn, BitVec.ofNat_toNat, BitVec.setWidth_eq]
      rw [if_pos hn, ← hn', Function.update_self, BitVec.toNat_ofNat, Nat.mod_eq_of_lt hv']
      exact a.eval_eq_val ha v
    · have hn' : n ≠ BitVec.ofNat 32 (a.val i) := by
        intro h
        rw [h, BitVec.toNat_ofNat, Nat.mod_eq_of_lt hi'] at hn
        exact hn rfl
      rw [if_neg hn, Function.update_of_ne hn']
      exact ih holder

end Assignment

namespace Smt

/-! ## Terms -/

theorem Value.bits_eq {w w' : Nat} {x : BitVec w} {y : BitVec w'} (hw : w = w')
    (h : x.toNat = y.toNat) : bits x = bits y := by
  subst hw
  rw [BitVec.eq_of_toNat_eq h]

/-- Under the assignment `a`, the term has the value of the expression. -/
def Term.Means (M : Env) (a : Assignment) (t : Term) (e : Expr) : Prop :=
  ∃ (w : Nat) (x : BitVec w), Denotes a e x ∧ t.denote M = some (.bits x)

namespace Term.Means

variable {M M' : Env} {a : Assignment} {t t' t'' : Term} {e l r : Expr} {w : Nat}

theorem mono (h : t.Means M a e) (hM : M.Within M') : t.Means M' a e := by
  obtain ⟨w, x, he, ht⟩ := h
  exact ⟨w, x, he, denote_mono hM ht⟩

theorem const {v : Nat} (he : (Expr.const v w).WellFormed) :
    (literal v w).Means M a (.const v w) := by
  have hparts := he
  simp only [Expr.WellFormed] at hparts
  refine ⟨w, BitVec.ofNat w v, ⟨he, rfl, ?_⟩, denote_eq_some.2 ⟨hparts.1, hparts.2.2, rfl⟩⟩
  rw [Assignment.eval_const, BitVec.toNat_ofNat, Nat.mod_eq_of_lt hparts.2.2]

theorem read (ha : a.free) {u : Updates} {s : Symbol} (he : (Expr.read u e).WellFormed)
    (hs : M s = some (.array (a.after (a.contents u.root) u.writes))) (ht : t.Means M a e) :
    (select (symbol s) t).Means M a (.read u e) := by
  have hparts := he
  simp only [Expr.WellFormed] at hparts
  obtain ⟨w, x, hx, hden⟩ := ht
  obtain rfl : w = 32 := hx.width_eq.symm.trans hparts.2.2
  refine ⟨8, _, ⟨he, rfl, ?_⟩, denote_eq_some.2 ⟨_, x, hs, hden, rfl⟩⟩
  exact Assignment.eval_read.2 ⟨_, hx.eval_eq, Assignment.evalRead_eq_after ha hparts.1 x⟩

theorem isBit (ht : t.Means M a e) (he : e.width = 1) (b : Bool) :
    ∃ x : BitVec 1, Denotes a e x ∧ (t.isBit b).denote M = some (.truth (x == BitVec.ofBool b)) := by
  obtain ⟨w, x, hx, hden⟩ := ht
  obtain rfl : w = 1 := hx.width_eq.symm.trans he
  exact ⟨x, hx, denote_eq_some.2 ⟨1, x, _, hden, rfl, rfl⟩⟩

theorem select (he : (Expr.select e l r).WellFormed) (hc : t.Means M a e) (ht : t'.Means M a l)
    (hf : t''.Means M a r) : (ite (t.isBit true) t' t'').Means M a (.select e l r) := by
  simp only [Expr.WellFormed] at he
  obtain ⟨z, hz, hbit⟩ := hc.isBit he.2.2.2.1 true
  obtain ⟨w, x, hx, hdenx⟩ := ht
  obtain ⟨w', y, hy, hdeny⟩ := hf
  obtain rfl : w = w' := by rw [← hx.width_eq, ← hy.width_eq, he.2.2.2.2]
  refine ⟨w, _, hz.select hx hy, denote_eq_some.2 ⟨_, _, _, hbit, hdenx, hdeny, rfl, ?_⟩⟩
  have hone : ∀ z : BitVec 1, (z == BitVec.ofBool true) = !decide (z = 0) := by decide
  rw [hone]
  by_cases h0 : z = 0
  · simp only [h0, decide_true, Bool.not_true, Bool.false_eq_true, if_true, if_false]
  · simp only [h0, decide_false, Bool.not_false, if_true, if_false]

theorem concat (he : (Expr.concat l r).WellFormed) (hm : t.Means M a l) (hl : t'.Means M a r) :
    (Term.concat t t').Means M a (.concat l r) := by
  simp only [Expr.WellFormed, maxWidth_eq] at he
  obtain ⟨w, x, hx, hdenx⟩ := hm
  obtain ⟨w', y, hy, hdeny⟩ := hl
  have hw : w + w' ≤ 64 := by
    rw [← hx.width_eq, ← hy.width_eq]
    exact he.2.2
  exact ⟨w + w', x ++ y, hx.concat hy hw, denote_eq_some.2 ⟨w, x, w', y, hdenx, hdeny, rfl⟩⟩

theorem extract {o : Nat} (he : (Expr.extract e o w).WellFormed) (ht : t.Means M a e) :
    (Term.extract (o + w - 1) o t).Means M a (.extract e o w) := by
  simp only [Expr.WellFormed] at he
  obtain ⟨w', x, hx, hden⟩ := ht
  have hw := he.2.2
  rw [hx.width_eq] at hw
  refine ⟨w, x.extractLsb' o w, hx.extract he.2.1 hw,
    denote_eq_some.2 ⟨w', x, hden, by omega, by omega, ?_⟩⟩
  have hwidth : o + w - 1 - o + 1 = w := by omega
  refine Value.bits_eq hwidth ?_
  rw [BitVec.extractLsb, BitVec.extractLsb'_toNat, BitVec.extractLsb'_toNat, hwidth]

theorem zext (he : (Expr.zext e w).WellFormed) (ht : t.Means M a e) :
    (zeroExtend (w - e.width) t).Means M a (.zext e w) := by
  simp only [Expr.WellFormed, maxWidth_eq] at he
  obtain ⟨w', x, hx, hden⟩ := ht
  have hle := he.2.1
  rw [hx.width_eq] at hle
  refine ⟨w, x.setWidth w, hx.zext hle he.2.2, denote_eq_some.2 ⟨w', x, hden, ?_⟩⟩
  rw [hx.width_eq, Nat.add_sub_cancel' hle]

theorem sext (he : (Expr.sext e w).WellFormed) (ht : t.Means M a e) :
    (signExtend (w - e.width) t).Means M a (.sext e w) := by
  simp only [Expr.WellFormed, maxWidth_eq] at he
  obtain ⟨w', x, hx, hden⟩ := ht
  have hle := he.2.1
  rw [hx.width_eq] at hle
  refine ⟨w, x.signExtend w, hx.sext hle he.2.2, denote_eq_some.2 ⟨w', x, hden, ?_⟩⟩
  rw [hx.width_eq, Nat.add_sub_cancel' hle]

theorem not (ht : t.Means M a e) : (Term.not t).Means M a (.not e) := by
  obtain ⟨w, x, hx, hden⟩ := ht
  exact ⟨w, ~~~x, hx.not, denote_eq_some.2 ⟨w, x, hden, rfl⟩⟩

theorem binary (op : BinOp) (hw : l.width = r.width) (hl : t.Means M a l) (hr : t'.Means M a r) :
    (Term.binary op t t').Means M a (.binary op l r) := by
  obtain ⟨w, x, hx, hdenx⟩ := hl
  obtain ⟨w', y, hy, hdeny⟩ := hr
  obtain rfl : w = w' := by rw [← hx.width_eq, ← hy.width_eq, hw]
  exact ⟨w, op.denote x y, hx.binary op hy, denote_eq_some.2 ⟨w, x, y, hdenx, hdeny, rfl⟩⟩

theorem compare (op : CmpOp) (hw : l.width = r.width) (hl : t.Means M a l)
    (hr : t'.Means M a r) :
    (ite (Term.compare op t t') (bit true) (bit false)).Means M a (.compare op l r) := by
  obtain ⟨w, x, hx, hdenx⟩ := hl
  obtain ⟨w', y, hy, hdeny⟩ := hr
  obtain rfl : w = w' := by rw [← hx.width_eq, ← hy.width_eq, hw]
  have hcmp : (Term.compare op t t').denote M = some (.truth (op.denote x y)) :=
    denote_eq_some.2 ⟨w, x, y, hdenx, hdeny, rfl⟩
  refine ⟨1, _, hx.compare op hy, denote_eq_some.2 ⟨_, _, _, hcmp, rfl, rfl, rfl, ?_⟩⟩
  cases op.denote x y <;> rfl

end Term.Means

/-! ## Tables -/

theorem Build.denote_stores {M : Env} {l : List UInt8}
    (hl : ∀ (i : Nat) b, l[i]? = some b → b ≠ 0 → i < 2 ^ 32) :
    (l.zipIdx.foldl (fun t (b, i) ↦
      if b = 0 then t else .store t (.literal i 32) (.literal b.toNat 8)) Term.zeros).denote M =
    some (.array fun i ↦ (l[i.toNat]?.getD 0).toBitVec) := by
  induction l using List.reverseRecOn with
  | nil => simp [Term.denote]
  | append_singleton l b ih =>
    have hl' : ∀ (i : Nat) c, l[i]? = some c → c ≠ 0 → i < 2 ^ 32 := by
      intro i c hi
      have hlt := (List.getElem?_eq_some_iff.1 hi).1
      exact hl i c (by rw [List.getElem?_append_left hlt, hi])
    rw [List.zipIdx_append, List.foldl_append]
    simp only [List.zipIdx_cons, List.zipIdx_nil, List.foldl_cons, List.foldl_nil, Nat.zero_add]
    split
    · rename_i hb
      rw [ih hl']
      congr
      funext i
      have hi : (l ++ [b])[i.toNat]?.getD 0 = l[i.toNat]?.getD 0 := by grind
      rw [hi]
    · rename_i hb
      have hlen : l.length < 2 ^ 32 := hl l.length b (by simp) hb
      refine Term.denote_eq_some.2 ⟨_, _, _, ih hl', Term.denote_eq_some.2 ⟨by decide, hlen, rfl⟩,
        Term.denote_eq_some.2 ⟨by decide, b.toNat_lt, rfl⟩, ?_⟩
      congr
      funext i
      by_cases hi : i = BitVec.ofNat 32 l.length
      · have hi' : i.toNat = l.length := by
          rw [hi, BitVec.toNat_ofNat, Nat.mod_eq_of_lt hlen]
        rw [hi, Function.update_self, ← hi, hi']
        simp
      · have hi' : i.toNat ≠ l.length := by
          intro heq
          rw [← heq] at hi
          simp at hi
        have hrest : (l ++ [b])[i.toNat]? = l[i.toNat]? := by grind
        rw [Function.update_of_ne hi, hrest]

theorem Build.denote_tableBody {M : Env} {bytes : ByteArray}
    (h : ∀ (i : Nat) b, bytes[i]? = some b → b ≠ 0 → i < 2 ^ 32) :
    (tableBody bytes).denote M = some (.array fun i ↦ (bytes[i.toNat]?.getD 0).toBitVec) := by
  have h' : ∀ (i : Nat) b, bytes.data.toList[i]? = some b → b ≠ 0 → i < 2 ^ 32 := by
    intro i b hi
    rw [Array.getElem?_toList, ← Bytes.getElem?_eq_data] at hi
    exact h i b hi
  rw [tableBody, Bytes.toList_eq, denote_stores h']
  simp only [Array.getElem?_toList, Bytes.getElem?_eq_data]

/-! ## Symbols -/

namespace Symbol

/-- The number of a symbol that stands for something defined. -/
def number? : Symbol → Option Nat
  | input _ => none
  | value n | written n | table n => some n

theorem text_injective : Function.Injective text := by
  intro s s' h
  have hlist := congrArg String.toList h
  have hdecimal : Function.Injective decimal := fun _ _ h ↦ Nat.repr_injective h
  cases s <;> cases s' <;> simp [text, hdecimal.eq_iff] at h hlist ⊢ <;> assumption

end Symbol

/-! ## Building scripts -/

/-- What an assignment and the arrays that are given for the inputs have to do with each other, where
all arrays are in `S`. -/
structure Interprets (I : Symbol → BitVec 32 → BitVec 8) (a : Assignment) (S : NamedArray → Prop) :
    Prop where
  free : a.free
  /-- Inputs have symbols of their own. -/
  apart : ∀ A B, S A → S B → A.isSymbolic → B.isSymbolic →
    Symbol.ofName A.name = Symbol.ofName B.name → A = B
  wellFormed : ∀ A, S A → A.WellFormed
  tables : ∀ A, S A → A.isSymbolic = false → a.get? A.name = none
  inputs : ∀ A, S A → A.isSymbolic → I (Symbol.ofName A.name) = a.input A.name

/-- The script means `M`, and what it remembers is right. -/
structure Script.Faithful (I : Symbol → BitVec 32 → BitVec 8) (a : Assignment)
    (S : NamedArray → Prop) (s : Script) (M : Env) : Prop where
  meaning : meaning? I s.preamble = some M
  numbers : ∀ sym n, M sym ≠ none → sym.number? = some n → n < s.nextId
  declared : ∀ name, M (.input name) ≠ none →
    ∃ A : NamedArray, A.isSymbolic ∧ s.roots[A]? = some (.input name)
  roots : ∀ (A : NamedArray) (sym : Symbol), s.roots[A]? = some sym →
    S A ∧ (A.isSymbolic → sym = .ofName A.name) ∧ M sym = some (.array (a.contents A))
  values : ∀ (e : Expr) (sym : Symbol), s.values[e]? = some sym → (Term.symbol sym).Means M a e
  written : ∀ (below : Symbol) (writes : List (Expr × Expr)) (sym : Symbol), s.written[(below, writes)]? = some sym →
    ∃ f, M below = some (.array f) ∧ M sym = some (.array (a.after f writes))

section Tables

variable {α β : Type} [BEq α] [LawfulBEq α] [Hashable α] {m : Std.HashMap α β} {k k' : α} {v v' : β}

theorem eq_or_of_getElem?_insert (h : (m.insert k v)[k']? = some v') :
    k = k' ∧ v = v' ∨ m[k']? = some v' := by
  rw [Std.HashMap.getElem?_insert] at h
  split at h
  · rename_i heq
    exact .inl ⟨eq_of_beq heq, Option.some.inj h⟩
  · exact .inr h

theorem getElem?_insert_of_new (hnew : m[k]? = none) (h : m[k']? = some v') :
    (m.insert k v)[k']? = some v' := by
  rw [Std.HashMap.getElem?_insert, if_neg, h]
  intro heq
  obtain rfl : k = k' := eq_of_beq heq
  exact nomatch hnew.symm.trans h

end Tables

namespace Script.Faithful

variable {I : Symbol → BitVec 32 → BitVec 8} {a : Assignment} {S : NamedArray → Prop} {s : Script}
  {M : Env}

theorem empty : Script.Faithful I a S {} fun _ ↦ none where
  meaning := rfl
  numbers _ _ h := absurd rfl h
  declared _ h := absurd rfl h
  roots _ _ h := by simp at h
  values _ _ h := by simp at h
  written _ _ _ h := by simp at h

theorem rememberValue (h : s.Faithful I a S M) {e : Expr} {sym : Symbol}
    (he : (Term.symbol sym).Means M a e) :
    { s with values := s.values.insert e sym }.Faithful I a S M := by
  refine { h with values := ?_ }
  intro e' sym' he'
  obtain ⟨rfl, rfl⟩ | he' := eq_or_of_getElem?_insert he'
  · exact he
  · exact h.values e' sym' he'

theorem rememberWritten (h : s.Faithful I a S M) {below sym : Symbol} {writes : List (Expr × Expr)}
    {f : BitVec 32 → BitVec 8} (hbelow : M below = some (.array f))
    (hsym : M sym = some (.array (a.after f writes))) :
    { s with written := s.written.insert (below, writes) sym }.Faithful I a S M := by
  refine { h with written := ?_ }
  intro below' writes' sym' h'
  obtain ⟨heq, rfl⟩ | h' := eq_or_of_getElem?_insert h'
  · obtain ⟨rfl, rfl⟩ := Prod.mk.inj heq
    exact ⟨f, hbelow, hsym⟩
  · exact h.written below' writes' sym' h'

theorem rememberRoot (h : s.Faithful I a S M) {A : NamedArray} {sym : Symbol} (hA : S A)
    (hinput : A.isSymbolic → sym = .ofName A.name) (hnew : s.roots[A]? = none)
    (hsym : M sym = some (.array (a.contents A))) :
    { s with roots := s.roots.insert A sym }.Faithful I a S M := by
  refine { h with declared := ?_, roots := ?_ }
  · intro name hname
    obtain ⟨B, hB, hroot⟩ := h.declared name hname
    exact ⟨B, hB, getElem?_insert_of_new hnew hroot⟩
  · intro B sym' hB
    obtain ⟨rfl, rfl⟩ | hB := eq_or_of_getElem?_insert hB
    · exact ⟨hA, hinput, hsym⟩
    · exact h.roots B sym' hB

theorem define (h : s.Faithful I a S M) {symbol : Nat → Symbol}
    (hnumber : ∀ n, (symbol n).number? = some n) {kind : Kind} {body : Term} {v : Value}
    (hv : body.denote M = some v) (hty : v.ty = .of kind) :
    ∃ M', M.Within M' ∧ ((Build.define symbol kind body).run s).2.Faithful I a S M' ∧
      M' ((Build.define symbol kind body).run s).1 = some v := by
  have hnew : M (symbol s.nextId) = none := by
    by_contra hne
    exact absurd (h.numbers _ _ hne (hnumber _)) (Nat.lt_irrefl _)
  have hM := Env.within_update hnew v
  refine ⟨_, hM, ?_, Function.update_self ..⟩
  refine ⟨?_, ?_, ?_, ?_, ?_, ?_⟩
  · have hmeaning := meaning?_define h.meaning hnew hv hty
    rwa [Script.preamble, List.append_assoc, ← Array.toList_push] at hmeaning
  · intro sym n hsym hn
    by_cases heq : sym = symbol s.nextId
    · subst heq
      obtain rfl : s.nextId = n := by simpa [hnumber] using hn
      exact Nat.lt_succ_self _
    · rw [Function.update_of_ne heq] at hsym
      exact Nat.lt_succ_of_lt (h.numbers sym n hsym hn)
  · intro name hname
    have hne : Symbol.input name ≠ symbol s.nextId := by
      intro heq
      have hn := hnumber s.nextId
      simp [← heq, Symbol.number?] at hn
    rw [Function.update_of_ne hne] at hname
    exact h.declared name hname
  · intro A sym hA
    obtain ⟨hS, hinput, hsym⟩ := h.roots A sym hA
    exact ⟨hS, hinput, hM hsym⟩
  · intro e sym he
    exact (h.values e sym he).mono hM
  · intro below writes sym hw
    obtain ⟨f, hbelow, hsym⟩ := h.written below writes sym hw
    exact ⟨f, hM hbelow, hM hsym⟩

theorem ofName_eq_none (h : s.Faithful I a S M) (hI : Interprets I a S) {A : NamedArray}
    (hA : S A) (hsymbolic : A.isSymbolic) (hnew : s.roots[A]? = none) :
    M (Symbol.ofName A.name) = none := by
  by_contra hne
  obtain ⟨B, hB, hroot⟩ := h.declared _ hne
  obtain ⟨hSB, hname, -⟩ := h.roots B _ hroot
  obtain rfl : A = B := hI.apart A B hA hSB hsymbolic hB (hname hB)
  simp [hnew] at hroot

theorem declare (h : s.Faithful I a S M) (hI : Interprets I a S) {A : NamedArray} (hA : S A)
    (hsymbolic : A.isSymbolic) (hnew : s.roots[A]? = none) :
    ∃ M', M.Within M' ∧
      { s with
        declarations := s.declarations.push (.declare (.ofName A.name))
        inputs := s.inputs.insert A.name A
        roots := s.roots.insert A (.ofName A.name) }.Faithful I a S M' ∧
      M' (.ofName A.name) = some (.array (a.contents A)) := by
  have hnone := h.ofName_eq_none hI hA hsymbolic hnew
  have hM := Env.within_update hnone (.array (I (.ofName A.name)))
  have hcontents : I (.ofName A.name) = a.contents A := by
    rw [hI.inputs A hA hsymbolic, Assignment.contents_of_isSymbolic hsymbolic]
  have hsym : Function.update M (.ofName A.name) (some (.array (I (.ofName A.name))))
      (.ofName A.name) = some (.array (a.contents A)) := by
    rw [Function.update_self, hcontents]
  refine ⟨_, hM, ⟨?_, ?_, ?_, ?_, ?_, ?_⟩, hsym⟩
  · have hmeaning := meaning?_declare h.meaning hnone
    rwa [← Array.toList_push] at hmeaning
  · intro sym n hsym hn
    have hne : sym ≠ .ofName A.name := by
      intro heq
      simp [heq, Symbol.ofName, Symbol.number?] at hn
    rw [Function.update_of_ne hne] at hsym
    exact h.numbers sym n hsym hn
  · intro name hname
    by_cases heq : Symbol.input name = .ofName A.name
    · refine ⟨A, hsymbolic, ?_⟩
      rw [Std.HashMap.getElem?_insert_self, heq]
    · rw [Function.update_of_ne heq] at hname
      obtain ⟨B, hB, hroot⟩ := h.declared name hname
      exact ⟨B, hB, getElem?_insert_of_new hnew hroot⟩
  · intro B sym hB
    obtain ⟨rfl, rfl⟩ | hB := eq_or_of_getElem?_insert hB
    · exact ⟨hA, fun _ ↦ rfl, hsym⟩
    · obtain ⟨hS, hinput, hsym'⟩ := h.roots B sym hB
      exact ⟨hS, hinput, hM hsym'⟩
  · intro e sym he
    exact (h.values e sym he).mono hM
  · intro below writes sym hw
    obtain ⟨f, hbelow, hsym'⟩ := h.written below writes sym hw
    exact ⟨f, hM hbelow, hM hsym'⟩

end Script.Faithful

namespace Build

/-- Whatever was known in `M` and became known since stays known, and the result is as `Q` says. -/
def Yields {α : Type} (I : Symbol → BitVec 32 → BitVec 8) (a : Assignment) (S : NamedArray → Prop)
    (M : Env) (b : Build α) (Q : Env → α → Prop) : Prop :=
  ∀ s M₁, M.Within M₁ → Script.Faithful I a S s M₁ →
    ∃ M₂, M₁.Within M₂ ∧ (b.run s).2.Faithful I a S M₂ ∧ Q M₂ (b.run s).1

variable {I : Symbol → BitVec 32 → BitVec 8} {a : Assignment} {S : NamedArray → Prop} {M : Env}
  {α β : Type}

theorem yields_pure {Q : Env → α → Prop} {x : α} (h : ∀ M₁, M.Within M₁ → Q M₁ x) :
    Yields I a S M (pure x) Q := by
  intro s M₁ hM hs
  exact ⟨M₁, .refl M₁, hs, h M₁ hM⟩

theorem yields_bind {b : Build α} {k : α → Build β} {Q : Env → α → Prop} {R : Env → β → Prop}
    (hb : Yields I a S M b Q)
    (hk : ∀ M₁ x, M.Within M₁ → Q M₁ x → Yields I a S M₁ (k x) R) :
    Yields I a S M (b >>= k) R := by
  intro s M₁ hM hs
  obtain ⟨M₂, h₁₂, hs₂, hQ⟩ := hb s M₁ hM hs
  obtain ⟨M₃, h₂₃, hs₃, hR⟩ := hk M₂ _ (hM.trans h₁₂) hQ _ M₂ (.refl M₂) hs₂
  exact ⟨M₃, h₁₂.trans h₂₃, hs₃, hR⟩

theorem run_get_bind (k : Script → Build α) (s : Script) : StateT.run (get >>= k) s = (k s).run s :=
  rfl

theorem yields_root (hI : Interprets I a S) {A : NamedArray} (hA : S A) :
    Yields I a S M (root A) fun M' sym ↦ M' sym = some (.array (a.contents A)) := by
  intro s M₁ _ hs
  cases hfound : s.roots[A]? with
  | some sym =>
    rw [root, run_get_bind, hfound]
    exact ⟨M₁, .refl M₁, hs, (hs.roots A sym hfound).2.2⟩
  | none =>
    cases hcontents : A.contents with
    | some bytes =>
      have hsymbolic : A.isSymbolic = false := by simp [NamedArray.isSymbolic, hcontents]
      have hbody := denote_tableBody (M := M₁) fun i b hi ↦
        hI.wellFormed A hA i b (by rw [NamedArray.byte?, hcontents]; exact hi)
      rw [← funext (Assignment.contents_of_table hcontents (hI.tables A hA hsymbolic))] at hbody
      obtain ⟨M₂, hM₂, hs₂, hsym⟩ := hs.define (fun n ↦ (rfl : (Symbol.table n).number? = _)) hbody rfl
      rw [root, run_get_bind, hfound, hcontents]
      exact ⟨M₂, hM₂, hs₂.rememberRoot hA (by simp [hsymbolic]) hfound hsym, hsym⟩
    | none =>
      have hsymbolic : A.isSymbolic := by simp [NamedArray.isSymbolic, hcontents]
      rw [root, run_get_bind, hfound, hcontents]
      exact hs.declare hI hA hsymbolic hfound

theorem yields_value {e : Expr} {body : Build Term}
    (hbody : Yields I a S M body fun M' t ↦ t.Means M' a e) :
    Yields I a S M (value e body) fun M' t ↦ t.Means M' a e := by
  intro s M₁ hM hs
  cases hfound : s.values[e]? with
  | some sym =>
    rw [value, run_get_bind, hfound]
    exact ⟨M₁, .refl M₁, hs, hs.values e sym hfound⟩
  | none =>
    obtain ⟨M₂, h₁₂, hs₂, w, x, hx, hden⟩ := hbody s M₁ hM hs
    have hty : (Value.bits x).ty = .of (.bits e.width) := by rw [hx.width_eq, Value.ty_bits]
    obtain ⟨M₃, h₂₃, hs₃, hsym⟩ := hs₂.define (fun n ↦ (rfl : (Symbol.value n).number? = _)) hden hty
    rw [value, run_get_bind, hfound]
    exact ⟨M₃, h₁₂.trans h₂₃, hs₃.rememberValue ⟨w, x, hx, hsym⟩, w, x, hx, hsym⟩

theorem yields_written {below array : Symbol} {f : BitVec 32 → BitVec 8}
    {older : List (Expr × Expr)} {i v : Expr} {t t' : Term} (hbelow : M below = some (.array f))
    (harray : M array = some (.array (a.after f older))) (hi : t.Means M a i) (hiw : i.width = 32)
    (hv : t'.Means M a v) (hvw : v.width = 8) :
    Yields I a S M
      (do
        let symbol ← define .written .array (.store (.symbol array) t t')
        modify fun s ↦ { s with written := s.written.insert (below, (i, v) :: older) symbol }
        return symbol)
      fun M' sym ↦ M' sym = some (.array (a.after f ((i, v) :: older))) := by
  intro s M₁ hM hs
  obtain ⟨w, x, hx, hdenx⟩ := hi.mono hM
  obtain ⟨w', y, hy, hdeny⟩ := hv.mono hM
  obtain rfl : w = 32 := hx.width_eq.symm.trans hiw
  obtain rfl : w' = 8 := hy.width_eq.symm.trans hvw
  have hstore : (Term.store (.symbol array) t t').denote M₁ =
      some (.array (a.after f ((i, v) :: older))) := by
    refine Term.denote_eq_some.2 ⟨_, x, y, hM harray, hdenx, hdeny, ?_⟩
    simp only [Assignment.after, Assignment.val_eq hx.eval_eq, Assignment.val_eq hy.eval_eq,
      BitVec.ofNat_toNat, BitVec.setWidth_eq]
  obtain ⟨M₂, h₁₂, hs₂, hsym⟩ :=
    hs.define (fun n ↦ (rfl : (Symbol.written n).number? = _)) hstore rfl
  exact ⟨M₂, h₁₂, hs₂.rememberWritten (h₁₂ (hM hbelow)) hsym, hsym⟩

mutual

theorem yields_term {M : Env} (hI : Interprets I a S) {e : Expr} (he : e.WellFormed)
    (hreads : e.ReadsIn S) : Yields I a S M (term e) fun M' t ↦ t.Means M' a e := by
  have hparts := he
  match e with
  | .const v w =>
    rw [term]
    exact yields_pure fun _ _ ↦ .const he
  | .read u i =>
    simp only [Expr.WellFormed] at hparts
    simp only [Expr.ReadsIn] at hreads
    rw [term]
    refine yields_value (yields_bind (yields_root hI hreads.1.root) fun M₁ sym _ hsym ↦ ?_)
    refine yields_bind (yields_chain hI hparts.1 hreads.1 hsym) fun M₂ array _ harray ↦ ?_
    refine yields_bind (yields_term hI hparts.2.1 hreads.2) fun M₃ t h₂₃ ht ↦ ?_
    exact yields_pure fun M₄ h₃₄ ↦ (Term.Means.read hI.free he (h₂₃ harray) ht).mono h₃₄
  | .select c t f =>
    simp only [Expr.WellFormed] at hparts
    simp only [Expr.ReadsIn] at hreads
    rw [term]
    refine yields_value (yields_bind (yields_term hI hparts.1 hreads.1) fun M₁ c' _ hc ↦ ?_)
    refine yields_bind (yields_term hI hparts.2.1 hreads.2.1) fun M₂ t' h₁₂ ht ↦ ?_
    refine yields_bind (yields_term hI hparts.2.2.1 hreads.2.2) fun M₃ f' h₂₃ hf ↦ ?_
    exact yields_pure fun M₄ h₃₄ ↦
      (Term.Means.select he (hc.mono (h₁₂.trans h₂₃)) (ht.mono h₂₃) hf).mono h₃₄
  | .concat m l =>
    simp only [Expr.WellFormed] at hparts
    simp only [Expr.ReadsIn] at hreads
    rw [term]
    refine yields_value (yields_bind (yields_term hI hparts.1 hreads.1) fun M₁ m' _ hm ↦ ?_)
    refine yields_bind (yields_term hI hparts.2.1 hreads.2) fun M₂ l' h₁₂ hl ↦ ?_
    exact yields_pure fun M₃ h₂₃ ↦ (Term.Means.concat he (hm.mono h₁₂) hl).mono h₂₃
  | .extract x offset width =>
    simp only [Expr.WellFormed] at hparts
    simp only [Expr.ReadsIn] at hreads
    rw [term]
    refine yields_value (yields_bind (yields_term hI hparts.1 hreads) fun M₁ x' _ hx ↦ ?_)
    exact yields_pure fun M₂ h₁₂ ↦ (Term.Means.extract he hx).mono h₁₂
  | .zext x width =>
    simp only [Expr.WellFormed] at hparts
    simp only [Expr.ReadsIn] at hreads
    rw [term]
    refine yields_value (yields_bind (yields_term hI hparts.1 hreads) fun M₁ x' _ hx ↦ ?_)
    exact yields_pure fun M₂ h₁₂ ↦ (Term.Means.zext he hx).mono h₁₂
  | .sext x width =>
    simp only [Expr.WellFormed] at hparts
    simp only [Expr.ReadsIn] at hreads
    rw [term]
    refine yields_value (yields_bind (yields_term hI hparts.1 hreads) fun M₁ x' _ hx ↦ ?_)
    exact yields_pure fun M₂ h₁₂ ↦ (Term.Means.sext he hx).mono h₁₂
  | .not x =>
    simp only [Expr.WellFormed] at hparts
    simp only [Expr.ReadsIn] at hreads
    rw [term]
    refine yields_value (yields_bind (yields_term hI hparts hreads) fun M₁ x' _ hx ↦ ?_)
    exact yields_pure fun M₂ h₁₂ ↦ hx.not.mono h₁₂
  | .binary op l r =>
    simp only [Expr.WellFormed] at hparts
    simp only [Expr.ReadsIn] at hreads
    rw [term]
    refine yields_value (yields_bind (yields_term hI hparts.1 hreads.1) fun M₁ l' _ hl ↦ ?_)
    refine yields_bind (yields_term hI hparts.2.1 hreads.2) fun M₂ r' h₁₂ hr ↦ ?_
    exact yields_pure fun M₃ h₂₃ ↦ ((hl.mono h₁₂).binary op hparts.2.2 hr).mono h₂₃
  | .compare op l r =>
    simp only [Expr.WellFormed] at hparts
    simp only [Expr.ReadsIn] at hreads
    rw [term]
    refine yields_value (yields_bind (yields_term hI hparts.1 hreads.1) fun M₁ l' _ hl ↦ ?_)
    refine yields_bind (yields_term hI hparts.2.1 hreads.2) fun M₂ r' h₁₂ hr ↦ ?_
    exact yields_pure fun M₃ h₂₃ ↦ ((hl.mono h₁₂).compare op hparts.2.2 hr).mono h₂₃

theorem yields_chain {M : Env} (hI : Interprets I a S) {u : Updates} (hu : u.WellFormed)
    (hreads : u.ReadsIn S) {below : Symbol} {f : BitVec 32 → BitVec 8}
    (hbelow : M below = some (.array f)) :
    Yields I a S M (chain below u) fun M' sym ↦ M' sym = some (.array (a.after f u.writes)) := by
  match u with
  | .base A =>
    rw [chain]
    exact yields_pure fun M₁ h₁ ↦ h₁ hbelow
  | .write i v older =>
    simp only [Updates.WellFormed] at hu
    simp only [Updates.ReadsIn] at hreads
    intro s M₁ hM hs
    rw [chain]
    cases hfound : s.written[(below, (Updates.write i v older).writes)]? with
    | some sym =>
      rw [run_get_bind, hfound]
      obtain ⟨f', hbelow', hsym⟩ := hs.written _ _ _ hfound
      obtain rfl : f' = f := by simpa [hM hbelow] using hbelow'.symm
      exact ⟨M₁, .refl M₁, hs, hsym⟩
    | none =>
      rw [run_get_bind, hfound]
      refine (?_ : Yields I a S M _ fun M' sym ↦
        M' sym = some (.array (a.after f (Updates.write i v older).writes))) s M₁ hM hs
      refine yields_bind (yields_chain hI hu.2.2.1 hreads.2.2 hbelow) fun M₂ array h₂ harray ↦ ?_
      refine yields_bind (yields_term hI hu.1 hreads.1) fun M₃ i' h₂₃ hi ↦ ?_
      refine yields_bind (yields_term hI hu.2.1 hreads.2.1) fun M₄ v' h₃₄ hv ↦ ?_
      exact yields_written ((h₂.trans (h₂₃.trans h₃₄)) hbelow) (h₂₃.trans h₃₄ harray)
        (hi.mono h₃₄) hu.2.2.2.1 hv hu.2.2.2.2

end

end Build

/-! ## Requests -/

/-- What can be asked of a script. -/
inductive Request where
  | term (e : Expr)
  | assertion (e : Expr)
  | array (A : NamedArray)

namespace Request

def perform : Request → Build Term
  | term e => Build.term e
  | assertion e => Build.assertion e
  | array A => return .symbol (← Build.root A)

/-- All expressions and arrays are well-formed, and all arrays are in `S`. -/
def Over (S : NamedArray → Prop) : Request → Prop
  | term e | assertion e => e.Over fun A ↦ S A ∧ A.WellFormed
  | array A => S A ∧ A.WellFormed

/-- The answer has the sort that it should have. Only an expression of one bit can be asserted. -/
def HasSort (Γ : Context) (t : Term) : Request → Prop
  | term e => t.ty? Γ = some (.of (.bits e.width))
  | assertion e => e.width = 1 → t.ty? Γ = some .truth
  | array _ => t.ty? Γ = some (.of .array)

/-- The answer has the value that it should have. -/
def Answered (M : Env) (a : Assignment) (t : Term) : Request → Prop
  | term e => ∃ x : BitVec e.width, a.value? e = some x.toNat ∧ t.denote M = some (.bits x)
  | assertion e => e.width = 1 → t.denote M = some (.truth (a.value? e = some 1))
  | array A => t.denote M = some (.array (a.contents A))

variable {I : Symbol → BitVec 32 → BitVec 8} {a : Assignment} {S : NamedArray → Prop} {M M' : Env}
  {r : Request} {requests : List Request}

theorem Answered.mono {t : Term} (h : r.Answered M a t) (hM : M.Within M') : r.Answered M' a t := by
  cases r with
  | term e =>
    obtain ⟨x, hx, hden⟩ := h
    exact ⟨x, hx, Term.denote_mono hM hden⟩
  | assertion e => exact fun he ↦ Term.denote_mono hM (h he)
  | array A => exact Term.denote_mono hM h

theorem Answered.hasSort {t : Term} {Γ : Context} (h : r.Answered M a t) (hΓ : M.Fits Γ) :
    r.HasSort Γ t := by
  cases r with
  | term e =>
    obtain ⟨x, -, hden⟩ := h
    exact Term.ty?_of_denote hΓ hden
  | assertion e => exact fun he ↦ Term.ty?_of_denote hΓ (h he)
  | array A => exact Term.ty?_of_denote hΓ h

theorem yields_perform (hI : Interprets I a fun A ↦ S A ∧ A.WellFormed) (hr : r.Over S) :
    Build.Yields I a (fun A ↦ S A ∧ A.WellFormed) M r.perform fun M' t ↦ r.Answered M' a t := by
  cases r with
  | term e =>
    intro s M₁ hM hs
    obtain ⟨M₂, h₁₂, hs₂, w, x, hx, hden⟩ :=
      Build.yields_term hI hr.wellFormed hr.readsIn s M₁ hM hs
    obtain rfl := hx.width_eq
    refine ⟨M₂, h₁₂, hs₂, x, ?_, hden⟩
    rw [Assignment.value?_eq_eval, hx.eval_eq]
  | assertion e =>
    refine Build.yields_bind (Build.yields_term hI hr.wellFormed hr.readsIn) fun M₁ t _ ht ↦ ?_
    refine Build.yields_pure fun M₂ h₁₂ he ↦ ?_
    obtain ⟨x, hx, hden⟩ := (ht.mono h₁₂).isBit he true
    rw [hden, Assignment.value?_eq_eval, hx.eval_eq]
    have hone : ∀ x : BitVec 1, (x == BitVec.ofBool true) = decide (some x.toNat = some 1) := by
      decide
    rw [hone]
  | array A =>
    refine Build.yields_bind (Build.yields_root hI hr) fun M₁ sym _ hsym ↦ ?_
    exact Build.yields_pure fun M₂ h₁₂ ↦ h₁₂ hsym

theorem yields_mapM_perform (hI : Interprets I a fun A ↦ S A ∧ A.WellFormed) (hover : ∀ r ∈ requests, r.Over S) :
    Build.Yields I a (fun A ↦ S A ∧ A.WellFormed) M (requests.mapM perform) fun M' terms ↦
      List.Forall₂ (fun r t ↦ r.Answered M' a t) requests terms := by
  induction requests generalizing M with
  | nil => exact Build.yields_pure fun _ _ ↦ .nil
  | cons r rest ih =>
    rw [List.mapM_cons]
    refine Build.yields_bind (yields_perform hI (hover r List.mem_cons_self)) fun M₁ t _ ht ↦ ?_
    refine Build.yields_bind (ih fun r hr ↦ hover r (List.mem_cons_of_mem _ hr))
      fun M₂ ts h₁₂ hts ↦ ?_
    refine Build.yields_pure fun M₃ h₂₃ ↦ .cons (ht.mono (h₁₂.trans h₂₃)) ?_
    exact hts.imp fun _ _ h ↦ h.mono h₂₃

theorem exists_meaning (hI : Interprets I a fun A ↦ S A ∧ A.WellFormed) (hover : ∀ r ∈ requests, r.Over S) :
    ∃ M, meaning? I ((requests.mapM perform).run {}).2.preamble = some M ∧
      List.Forall₂ (fun r t ↦ r.Answered M a t) requests ((requests.mapM perform).run {}).1 := by
  obtain ⟨M, -, hs, hterms⟩ := yields_mapM_perform hI hover {} _ (.refl _) .empty
  exact ⟨M, hs.meaning, hterms⟩

/-- Scripts mean what is asked for. Where inputs have symbols of their own, every symbol becomes known once,
and before it is used; everything is well-sorted; and for all contents of the inputs, each answer has the
value that is asked for. -/
theorem meaning_preserved (hover : ∀ r ∈ requests, r.Over S)
    (hapart : ∀ A B, S A → S B → A.isSymbolic → B.isSymbolic →
      Symbol.ofName A.name = Symbol.ofName B.name → A = B) :
    let (terms, script) := (requests.mapM perform).run {}
    ((script.preamble.filterMap Command.symbol?).map Symbol.text).Nodup ∧
    (∃ Γ, kinds? script.preamble = some Γ ∧
      List.Forall₂ (fun r t ↦ r.HasSort Γ t) requests terms) ∧
    ∀ (a : Assignment) (I : Symbol → BitVec 32 → BitVec 8), a.free →
      (∀ A, S A → A.isSymbolic = false → a.get? A.name = none) →
      (∀ A, S A → A.isSymbolic → I (Symbol.ofName A.name) = a.input A.name) →
      ∃ M, meaning? I script.preamble = some M ∧
        List.Forall₂ (fun r t ↦ r.Answered M a t) requests terms := by
  have hapart' : ∀ A B, S A ∧ A.WellFormed → S B ∧ B.WellFormed → A.isSymbolic → B.isSymbolic →
      Symbol.ofName A.name = Symbol.ofName B.name → A = B := fun A B hA hB ↦ hapart A B hA.1 hB.1
  have hzero : Interprets (fun _ _ ↦ 0) ⟨true, {}⟩ fun A ↦ S A ∧ A.WellFormed :=
    ⟨rfl, hapart', fun _ hA ↦ hA.2, fun _ _ _ ↦ rfl, fun _ _ _ ↦ rfl⟩
  obtain ⟨M, hM, hterms⟩ := exists_meaning hzero hover
  obtain ⟨Γ, hkinds, hΓ⟩ := exists_kinds?_of_meaning? hM
  refine ⟨(nodup_of_meaning? hM).map Symbol.text_injective, ⟨Γ, hkinds, ?_⟩, ?_⟩
  · exact hterms.imp fun _ _ h ↦ h.hasSort hΓ
  · intro a I ha htables hinputs
    exact exists_meaning ⟨ha, hapart', fun _ hA ↦ hA.2, fun A hA ↦ htables A hA.1, fun A hA ↦ hinputs A hA.1⟩ hover

/-- A byte of an input, read below a write and compared, and a table. -/
def lowByte : List Request :=
  [.assertion (.compare .ult (.read (.write (.const 1 32) (.const 9 8) (.base (.symbolic "x" 1)))
      (.const 0 32)) (.const 10 8)),
    .array (.constant "t" ⟨#[0, 3]⟩)]

def seven : Assignment := (Assignment.mk true {}).bind "x" ⟨#[7]⟩

theorem meaning_preserved_low_byte :
    ∃ M, meaning? (fun _ ↦ seven.input "x") ((lowByte.mapM perform).run {}).2.preamble = some M ∧
      List.Forall₂ (fun r t ↦ r.Answered M seven t) lowByte ((lowByte.mapM perform).run {}).1 := by
  have hinput : (NamedArray.symbolic "x" 1).WellFormed := nofun
  have htable : (NamedArray.constant "t" ⟨#[0, 3]⟩).WellFormed := by
    intro i b hi _
    rw [NamedArray.byte?, NamedArray.constant, Option.bind_some, getElem?_eq_some_iff] at hi
    obtain ⟨hlt, -⟩ := hi
    exact Nat.lt_of_lt_of_le hlt (by decide)
  have hover : ∀ r ∈ lowByte,
      r.Over fun A ↦ A = .symbolic "x" 1 ∨ A = .constant "t" ⟨#[0, 3]⟩ := by
    intro r hr
    simp only [lowByte, List.mem_cons, List.not_mem_nil, or_false] at hr
    rcases hr with rfl | rfl
    · constructor <;> simp [Expr.ReadsIn, Updates.ReadsIn, hinput]
    · exact ⟨.inr rfl, htable⟩
  refine (meaning_preserved hover ?_).2.2 seven _ rfl ?_ ?_
  · intro A B hA hB hA' hB' _
    rcases hA with rfl | rfl <;> rcases hB with rfl | rfl <;> first | rfl | contradiction
  · intro A hA hA'
    rcases hA with rfl | rfl
    · contradiction
    · rfl
  · intro A hA hA'
    rcases hA with rfl | rfl
    · rfl
    · contradiction

end Request

end Smt

end Symex
