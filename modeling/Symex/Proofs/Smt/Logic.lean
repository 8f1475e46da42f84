import Mathlib.Logic.Function.Basic
import Mathlib.Data.List.Nodup
import Mathlib.Data.Sigma.Basic
import Symex.Smt.Script
import Symex.Proofs.Words

namespace Symex.Smt

/-- The sorts of terms. Symbols never stand for truth values. -/
inductive Ty where
  | truth
  | of (kind : Kind)
deriving DecidableEq

def Ty.width? : Ty → Option Nat
  | of (.bits w) => some w
  | _ => none

@[simp] theorem Ty.width?_of_bits (w : Nat) : (Ty.of (.bits w)).width? = some w := rfl

/-- The values of terms. -/
inductive Value where
  | truth (b : Bool)
  | bits {w : Nat} (x : BitVec w)
  | array (f : BitVec 32 → BitVec 8)

namespace Value

def ty : Value → Ty
  | truth _ => .truth
  | bits (w := w) _ => .of (.bits w)
  | array _ => .of .array

def truth? : Value → Option Bool
  | truth b => some b
  | _ => none

def word? : Value → Option (Σ w, BitVec w)
  | bits x => some ⟨_, x⟩
  | _ => none

def bits? (w : Nat) : Value → Option (BitVec w)
  | bits (w := w') x => if h : w' = w then some (x.cast h) else none
  | _ => none

def array? : Value → Option (BitVec 32 → BitVec 8)
  | array f => some f
  | _ => none

@[simp] theorem ty_truth (b : Bool) : (truth b).ty = .truth := rfl
@[simp] theorem ty_bits {w : Nat} (x : BitVec w) : (bits x).ty = .of (.bits w) := rfl
@[simp] theorem ty_array (f : BitVec 32 → BitVec 8) : (array f).ty = .of .array := rfl

@[simp] theorem truth?_truth (b : Bool) : (truth b).truth? = some b := rfl
@[simp] theorem word?_bits {w : Nat} (x : BitVec w) : (bits x).word? = some ⟨w, x⟩ := rfl
@[simp] theorem array?_array (f : BitVec 32 → BitVec 8) : (array f).array? = some f := rfl

@[simp] theorem bits?_bits {w : Nat} (x : BitVec w) : (bits x).bits? w = some x := by simp [bits?]

theorem truth?_eq_some {v : Value} {b : Bool} : v.truth? = some b ↔ v = truth b := by
  cases v <;> simp [truth?]

theorem word?_eq_some {v : Value} {w : Nat} {x : BitVec w} :
    v.word? = some ⟨w, x⟩ ↔ v = bits x := by
  cases v with
  | bits y =>
    simp only [word?, Option.some.injEq, Sigma.mk.injEq, bits.injEq]
  | truth b => simp [word?]
  | array f => simp [word?]

theorem bits?_eq_some {v : Value} {w : Nat} {x : BitVec w} : v.bits? w = some x ↔ v = bits x := by
  cases v with
  | bits y =>
    simp only [bits?, Option.dite_none_right_eq_some, Option.some.injEq, bits.injEq]
    constructor
    · rintro ⟨rfl, rfl⟩
      simp
    · rintro ⟨rfl, h⟩
      simpa using h
  | truth b => simp [bits?]
  | array f => simp [bits?]

theorem array?_eq_some {v : Value} {f : BitVec 32 → BitVec 8} :
    v.array? = some f ↔ v = array f := by
  cases v <;> simp [array?]

end Value

/-- What is known of symbols. -/
abbrev Env := Symbol → Option Value

/-- The kinds of symbols. -/
abbrev Context := Symbol → Option Kind

namespace Env

def Within (M M' : Env) : Prop := ∀ ⦃s v⦄, M s = some v → M' s = some v

/-- The same symbols are known, and their values are of their kinds. -/
def Fits (M : Env) (Γ : Context) : Prop := ∀ s, (M s).map Value.ty = (Γ s).map Ty.of

variable {M M' M'' : Env} {Γ : Context}

theorem Within.refl (M : Env) : M.Within M := fun _ _ h ↦ h

theorem Within.trans (h : M.Within M') (h' : M'.Within M'') : M.Within M'' :=
  fun _ _ hs ↦ h' (h hs)

theorem Within.eq_none (h : M.Within M') {s : Symbol} (hs : M' s = none) : M s = none := by
  cases hM : M s with
  | none => rfl
  | some v => simp [h hM] at hs

theorem within_update {s : Symbol} (hs : M s = none) (v : Value) :
    M.Within (Function.update M s (some v)) := by
  intro s' v' h
  rw [Function.update_of_ne, h]
  intro heq
  simp [heq, hs] at h

theorem Fits.eq_none (h : M.Fits Γ) {s : Symbol} (hs : M s = none) : Γ s = none := by
  have hΓ := h s
  rw [hs, Option.map_none] at hΓ
  exact Option.map_eq_none_iff.1 hΓ.symm

theorem Fits.update (h : M.Fits Γ) (s : Symbol) {v : Value} {kind : Kind} (hv : v.ty = .of kind) :
    Fits (Function.update M s (some v)) (Function.update Γ s (some kind)) := by
  intro s'
  by_cases hs : s' = s
  · subst hs
    simp [hv]
  · rw [Function.update_of_ne hs, Function.update_of_ne hs]
    exact h s'

end Env

namespace Term

def denote (M : Env) : Term → Option Value
  | literal v w => if 0 < w ∧ v < 2 ^ w then some (.bits (BitVec.ofNat w v)) else none
  | bit b => some (.bits (BitVec.ofBool b))
  | symbol s => M s
  | zeros => some (.array fun _ ↦ 0)
  | select a i => do
    let f ← (← a.denote M).array?
    let n ← (← i.denote M).bits? 32
    return .bits (f n)
  | store a i v => do
    let f ← (← a.denote M).array?
    let n ← (← i.denote M).bits? 32
    let b ← (← v.denote M).bits? 8
    return .array (Function.update f n b)
  | ite c t f => do
    let b ← (← c.denote M).truth?
    let x ← t.denote M
    let y ← f.denote M
    if x.ty = y.ty then return if b then x else y else none
  | concat m l => do
    let x ← (← m.denote M).word?
    let y ← (← l.denote M).word?
    return .bits (x.2 ++ y.2)
  | extract high low t => do
    let x ← (← t.denote M).word?
    if low ≤ high ∧ high < x.1 then return .bits (x.2.extractLsb high low) else none
  | zeroExtend n t => do
    let x ← (← t.denote M).word?
    return .bits (x.2.setWidth (x.1 + n))
  | signExtend n t => do
    let x ← (← t.denote M).word?
    return .bits (x.2.signExtend (x.1 + n))
  | not t => do
    let x ← (← t.denote M).word?
    return .bits (~~~x.2)
  | binary op l r => do
    let x ← (← l.denote M).word?
    let y ← (← r.denote M).bits? x.1
    return .bits (op.denote x.2 y)
  | compare op l r => do
    let x ← (← l.denote M).word?
    let y ← (← r.denote M).bits? x.1
    return .truth (op.denote x.2 y)

/-- The sort of a term whose symbols have the kinds in `Γ`. -/
def ty? (Γ : Context) : Term → Option Ty
  | literal v w => if 0 < w ∧ v < 2 ^ w then some (.of (.bits w)) else none
  | bit _ => some (.of (.bits 1))
  | symbol s => (Γ s).map .of
  | zeros => some (.of .array)
  | select a i =>
    if a.ty? Γ = some (.of .array) ∧ i.ty? Γ = some (.of (.bits 32)) then some (.of (.bits 8))
    else none
  | store a i v =>
    if a.ty? Γ = some (.of .array) ∧ i.ty? Γ = some (.of (.bits 32)) ∧
      v.ty? Γ = some (.of (.bits 8)) then some (.of .array)
    else none
  | ite c t f => if c.ty? Γ = some .truth ∧ t.ty? Γ = f.ty? Γ then t.ty? Γ else none
  | concat m l => do
    let w ← (← m.ty? Γ).width?
    let w' ← (← l.ty? Γ).width?
    return .of (.bits (w + w'))
  | extract high low t => do
    let w ← (← t.ty? Γ).width?
    if low ≤ high ∧ high < w then return .of (.bits (high - low + 1)) else none
  | zeroExtend n t | signExtend n t => do
    let w ← (← t.ty? Γ).width?
    return .of (.bits (w + n))
  | not t => do
    let w ← (← t.ty? Γ).width?
    return .of (.bits w)
  | binary _ l r => do
    let w ← (← l.ty? Γ).width?
    if r.ty? Γ = some (.of (.bits w)) then return .of (.bits w) else none
  | compare _ l r => do
    let w ← (← l.ty? Γ).width?
    if r.ty? Γ = some (.of (.bits w)) then return .truth else none

variable {M M' : Env} {v : Value}

/-- What the parts of a term denote where the term denotes `v`. -/
abbrev Parts (M : Env) (v : Value) : Term → Prop
  | literal n w => 0 < w ∧ n < 2 ^ w ∧ .bits (BitVec.ofNat w n) = v
  | bit b => .bits (BitVec.ofBool b) = v
  | symbol s => M s = some v
  | zeros => .array (fun _ ↦ 0) = v
  | select a i =>
    ∃ f n, a.denote M = some (.array f) ∧ i.denote M = some (.bits n) ∧ .bits (f n) = v
  | store a i x =>
    ∃ f n b, a.denote M = some (.array f) ∧ i.denote M = some (.bits n) ∧
      x.denote M = some (.bits b) ∧ .array (Function.update f n b) = v
  | ite c t f =>
    ∃ b x y, c.denote M = some (.truth b) ∧ t.denote M = some x ∧ f.denote M = some y ∧
      x.ty = y.ty ∧ (if b then x else y) = v
  | concat m l =>
    ∃ (w : Nat) (x : BitVec w) (w' : Nat) (y : BitVec w'), m.denote M = some (.bits x) ∧
      l.denote M = some (.bits y) ∧ .bits (x ++ y) = v
  | extract high low t =>
    ∃ (w : Nat) (x : BitVec w), t.denote M = some (.bits x) ∧ low ≤ high ∧ high < w ∧
      .bits (x.extractLsb high low) = v
  | zeroExtend n t =>
    ∃ (w : Nat) (x : BitVec w), t.denote M = some (.bits x) ∧ .bits (x.setWidth (w + n)) = v
  | signExtend n t =>
    ∃ (w : Nat) (x : BitVec w), t.denote M = some (.bits x) ∧ .bits (x.signExtend (w + n)) = v
  | not t => ∃ (w : Nat) (x : BitVec w), t.denote M = some (.bits x) ∧ .bits (~~~x) = v
  | binary op l r =>
    ∃ (w : Nat) (x y : BitVec w), l.denote M = some (.bits x) ∧ r.denote M = some (.bits y) ∧
      .bits (op.denote x y) = v
  | compare op l r =>
    ∃ (w : Nat) (x y : BitVec w), l.denote M = some (.bits x) ∧ r.denote M = some (.bits y) ∧
      .truth (op.denote x y) = v

theorem denote_eq_some {t : Term} : t.denote M = some v ↔ t.Parts M v := by
  cases t with
  | literal n w => simp [denote, Parts, and_assoc]
  | bit b => simp [denote, Parts]
  | symbol s => simp [denote, Parts]
  | zeros => simp [denote, Parts]
  | select a i | store a i x =>
    simp [denote, Parts, Option.bind_eq_some_iff, Value.array?_eq_some, Value.bits?_eq_some]
  | ite c t f =>
    simp only [denote, Parts, Option.bind_eq_bind, Option.bind_eq_some_iff, Value.truth?_eq_some,
      Option.ite_none_right_eq_some, Option.pure_def, Option.some.injEq]
    constructor
    · intro h
      obtain ⟨_, hc, b, rfl, x, hx, y, hy, hty, hv⟩ := h
      exact ⟨b, x, y, hc, hx, hy, hty, hv⟩
    · intro h
      obtain ⟨b, x, y, hc, hx, hy, hty, hv⟩ := h
      exact ⟨_, hc, b, rfl, x, hx, y, hy, hty, hv⟩
  | extract high low t =>
    simp [denote, Parts, Option.bind_eq_some_iff, Value.word?_eq_some, Sigma.exists, and_assoc]
  | concat m l | zeroExtend n t | signExtend n t | not t =>
    simp [denote, Parts, Option.bind_eq_some_iff, Value.word?_eq_some, Sigma.exists]
  | binary op l r | compare op l r =>
    simp [denote, Parts, Option.bind_eq_some_iff, Value.word?_eq_some, Value.bits?_eq_some,
      Sigma.exists]

theorem denote_mono (h : M.Within M') {t : Term} (ht : t.denote M = some v) :
    t.denote M' = some v := by
  induction t generalizing v with
  | literal n w => exact denote_eq_some.2 (denote_eq_some.1 ht)
  | bit b => exact ht
  | symbol s => exact h ht
  | zeros => exact ht
  | select a i iha ihi =>
    obtain ⟨f, n, ha, hi, rfl⟩ := denote_eq_some.1 ht
    exact denote_eq_some.2 ⟨f, n, iha ha, ihi hi, rfl⟩
  | store a i x iha ihi ihx =>
    obtain ⟨f, n, b, ha, hi, hx, rfl⟩ := denote_eq_some.1 ht
    exact denote_eq_some.2 ⟨f, n, b, iha ha, ihi hi, ihx hx, rfl⟩
  | ite c t f ihc iht ihf =>
    obtain ⟨b, x, y, hc, hx, hy, hty, rfl⟩ := denote_eq_some.1 ht
    exact denote_eq_some.2 ⟨b, x, y, ihc hc, iht hx, ihf hy, hty, rfl⟩
  | concat m l ihm ihl =>
    obtain ⟨w, x, w', y, hx, hy, rfl⟩ := denote_eq_some.1 ht
    exact denote_eq_some.2 ⟨w, x, w', y, ihm hx, ihl hy, rfl⟩
  | extract high low t ih =>
    obtain ⟨w, x, hx, hw⟩ := denote_eq_some.1 ht
    exact denote_eq_some.2 ⟨w, x, ih hx, hw⟩
  | zeroExtend n t ih =>
    obtain ⟨w, x, hx, rfl⟩ := denote_eq_some.1 ht
    exact denote_eq_some.2 ⟨w, x, ih hx, rfl⟩
  | signExtend n t ih =>
    obtain ⟨w, x, hx, rfl⟩ := denote_eq_some.1 ht
    exact denote_eq_some.2 ⟨w, x, ih hx, rfl⟩
  | not t ih =>
    obtain ⟨w, x, hx, rfl⟩ := denote_eq_some.1 ht
    exact denote_eq_some.2 ⟨w, x, ih hx, rfl⟩
  | binary op l r ihl ihr =>
    obtain ⟨w, x, y, hx, hy, rfl⟩ := denote_eq_some.1 ht
    exact denote_eq_some.2 ⟨w, x, y, ihl hx, ihr hy, rfl⟩
  | compare op l r ihl ihr =>
    obtain ⟨w, x, y, hx, hy, rfl⟩ := denote_eq_some.1 ht
    exact denote_eq_some.2 ⟨w, x, y, ihl hx, ihr hy, rfl⟩

theorem ty?_of_denote {Γ : Context} (h : M.Fits Γ) {t : Term} (ht : t.denote M = some v) :
    t.ty? Γ = some v.ty := by
  induction t generalizing v with
  | literal n w =>
    obtain ⟨h0, hn, rfl⟩ := denote_eq_some.1 ht
    simp [ty?, h0, hn]
  | bit b =>
    obtain rfl := denote_eq_some.1 ht
    rfl
  | symbol s =>
    have hs : M s = some v := ht
    rw [ty?, ← h s, hs, Option.map_some]
  | zeros =>
    obtain rfl := denote_eq_some.1 ht
    rfl
  | select a i iha ihi =>
    obtain ⟨f, n, ha, hi, rfl⟩ := denote_eq_some.1 ht
    simp [ty?, iha ha, ihi hi]
  | store a i x iha ihi ihx =>
    obtain ⟨f, n, b, ha, hi, hx, rfl⟩ := denote_eq_some.1 ht
    simp [ty?, iha ha, ihi hi, ihx hx]
  | ite c t f ihc iht ihf =>
    obtain ⟨b, x, y, hc, hx, hy, hty, rfl⟩ := denote_eq_some.1 ht
    cases b <;> simp [ty?, ihc hc, iht hx, ihf hy, hty]
  | concat m l ihm ihl =>
    obtain ⟨w, x, w', y, hx, hy, rfl⟩ := denote_eq_some.1 ht
    simp [ty?, ihm hx, ihl hy]
  | extract high low t ih =>
    obtain ⟨w, x, hx, hle, hlt, rfl⟩ := denote_eq_some.1 ht
    simp [ty?, ih hx, hle, hlt]
  | zeroExtend n t ih =>
    obtain ⟨w, x, hx, rfl⟩ := denote_eq_some.1 ht
    simp [ty?, ih hx]
  | signExtend n t ih =>
    obtain ⟨w, x, hx, rfl⟩ := denote_eq_some.1 ht
    simp [ty?, ih hx]
  | not t ih =>
    obtain ⟨w, x, hx, rfl⟩ := denote_eq_some.1 ht
    simp [ty?, ih hx]
  | binary op l r ihl ihr =>
    obtain ⟨w, x, y, hx, hy, rfl⟩ := denote_eq_some.1 ht
    simp [ty?, ihl hx, ihr hy]
  | compare op l r ihl ihr =>
    obtain ⟨w, x, y, hx, hy, rfl⟩ := denote_eq_some.1 ht
    simp [ty?, ihl hx, ihr hy]

end Term

/-! ## Commands -/

namespace Command

def symbol? : Command → Option Symbol
  | declare s | define s _ _ => some s
  | _ => none

/-- What is known after a declaration or a definition, where `I` gives the arrays that are declared. A
symbol that is known already, an unknown part or a wrong sort leave nothing. -/
def interpret (I : Symbol → BitVec 32 → BitVec 8) (M : Env) : Command → Option Env
  | declare s => if (M s).isNone then some (Function.update M s (some (.array (I s)))) else none
  | define s kind body => do
    let v ← body.denote M
    if (M s).isNone ∧ v.ty = .of kind then some (Function.update M s (some v)) else none
  | _ => none

def check (Γ : Context) : Command → Option Context
  | declare s => if Γ s = none then some (Function.update Γ s (some .array)) else none
  | define s kind body =>
    if Γ s = none ∧ body.ty? Γ = some (.of kind) then some (Function.update Γ s (some kind))
    else none
  | _ => none

variable {I : Symbol → BitVec 32 → BitVec 8} {M M' : Env} {s : Symbol} {kind : Kind} {body : Term}

@[simp] theorem interpret_declare :
    (declare s).interpret I M = some M' ↔
      M s = none ∧ Function.update M s (some (.array (I s))) = M' := by
  simp [interpret]

@[simp] theorem interpret_define :
    (define s kind body).interpret I M = some M' ↔
      ∃ v, body.denote M = some v ∧ M s = none ∧ v.ty = .of kind ∧
        Function.update M s (some v) = M' := by
  simp [interpret, Option.bind_eq_some_iff, and_assoc]

theorem interpret_cases {c : Command} (h : c.interpret I M = some M') :
    ∃ s v, c.symbol? = some s ∧ M s = none ∧ M' = Function.update M s (some v) := by
  cases c with
  | declare s =>
    obtain ⟨hs, rfl⟩ := interpret_declare.1 h
    exact ⟨s, _, rfl, hs, rfl⟩
  | define s kind body =>
    obtain ⟨v, -, hs, -, rfl⟩ := interpret_define.1 h
    exact ⟨s, v, rfl, hs, rfl⟩
  | _ => simp [interpret] at h

theorem within_of_interpret {c : Command} (h : c.interpret I M = some M') : M.Within M' := by
  obtain ⟨s, v, -, hs, rfl⟩ := interpret_cases h
  exact Env.within_update hs v

theorem interpret_update {c : Command} (h : c.interpret I M = some M') {s : Symbol}
    (hs : M' s = none) (u : Value) :
    c.interpret I (Function.update M s (some u)) = some (Function.update M' s (some u)) := by
  have hM : M s = none := (within_of_interpret h).eq_none hs
  cases c with
  | declare s' =>
    obtain ⟨hs', rfl⟩ := interpret_declare.1 h
    have hne : s ≠ s' := by
      intro heq
      simp [heq] at hs
    rw [interpret_declare, Function.update_of_ne hne.symm]
    exact ⟨hs', Function.update_comm hne ..⟩
  | define s' kind body =>
    obtain ⟨v, hv, hs', hty, rfl⟩ := interpret_define.1 h
    have hne : s ≠ s' := by
      intro heq
      simp [heq] at hs
    rw [interpret_define, Function.update_of_ne hne.symm]
    exact ⟨v, Term.denote_mono (Env.within_update hM u) hv, hs', hty, Function.update_comm hne ..⟩
  | _ => simp [interpret] at h

theorem exists_check_of_interpret {c : Command} {Γ : Context} (hΓ : M.Fits Γ)
    (h : c.interpret I M = some M') : ∃ Γ', c.check Γ = some Γ' ∧ M'.Fits Γ' := by
  cases c with
  | declare s =>
    obtain ⟨hs, rfl⟩ := interpret_declare.1 h
    exact ⟨_, if_pos (hΓ.eq_none hs), hΓ.update s rfl⟩
  | define s kind body =>
    obtain ⟨v, hv, hs, hty, rfl⟩ := interpret_define.1 h
    have hbody : body.ty? Γ = some (.of kind) := by rw [Term.ty?_of_denote hΓ hv, hty]
    exact ⟨_, if_pos ⟨hΓ.eq_none hs, hbody⟩, hΓ.update s hty⟩
  | _ => simp [interpret] at h

end Command

/-- What the symbols stand for once all commands are read. -/
def meaning? (I : Symbol → BitVec 32 → BitVec 8) (commands : List Command) : Option Env :=
  commands.foldlM (Command.interpret I) fun _ ↦ none

/-- The kinds of the symbols once all commands are checked. -/
def kinds? (commands : List Command) : Option Context :=
  commands.foldlM Command.check fun _ ↦ none

section Commands

variable {I : Symbol → BitVec 32 → BitVec 8} {M M' : Env} {commands earlier : List Command}

theorem within_of_foldlM (h : commands.foldlM (Command.interpret I) M = some M') :
    M.Within M' := by
  induction commands generalizing M with
  | nil =>
    obtain rfl : M = M' := by simpa using h
    exact .refl M
  | cons c rest ih =>
    rw [List.foldlM_cons, Option.bind_eq_bind, Option.bind_eq_some_iff] at h
    obtain ⟨M₁, hc, hrest⟩ := h
    exact (Command.within_of_interpret hc).trans (ih hrest)

theorem foldlM_interpret_update (h : commands.foldlM (Command.interpret I) M = some M')
    {s : Symbol} (hs : M' s = none) (u : Value) :
    commands.foldlM (Command.interpret I) (Function.update M s (some u)) =
      some (Function.update M' s (some u)) := by
  induction commands generalizing M with
  | nil =>
    obtain rfl : M = M' := by simpa using h
    rfl
  | cons c rest ih =>
    rw [List.foldlM_cons, Option.bind_eq_bind, Option.bind_eq_some_iff] at h
    obtain ⟨M₁, hc, hrest⟩ := h
    have h₁ := Command.interpret_update hc ((within_of_foldlM hrest).eq_none hs) u
    rw [List.foldlM_cons, h₁]
    exact ih hrest

theorem meaning?_declare {s : Symbol} (h : meaning? I (earlier ++ commands) = some M)
    (hs : M s = none) :
    meaning? I (earlier ++ [.declare s] ++ commands) =
      some (Function.update M s (some (.array (I s)))) := by
  rw [meaning?, List.foldlM_append, Option.bind_eq_bind, Option.bind_eq_some_iff] at h
  obtain ⟨M₁, h₁, h₂⟩ := h
  have hdeclare : (Command.declare s).interpret I M₁ =
      some (Function.update M₁ s (some (.array (I s)))) :=
    Command.interpret_declare.2 ⟨(within_of_foldlM h₂).eq_none hs, rfl⟩
  rw [meaning?, List.append_assoc, List.foldlM_append, h₁]
  simp only [List.singleton_append, List.foldlM_cons, Option.bind_eq_bind, Option.bind_some,
    hdeclare]
  exact foldlM_interpret_update h₂ hs _

theorem meaning?_define {s : Symbol} {kind : Kind} {body : Term} {v : Value}
    (h : meaning? I commands = some M) (hs : M s = none) (hv : body.denote M = some v)
    (hty : v.ty = .of kind) :
    meaning? I (commands ++ [.define s kind body]) = some (Function.update M s (some v)) := by
  have hdefine : (Command.define s kind body).interpret I M =
      some (Function.update M s (some v)) :=
    Command.interpret_define.2 ⟨v, hv, hs, hty, rfl⟩
  rw [meaning?] at h
  rw [meaning?, List.foldlM_append, h]
  simp [hdefine]

theorem exists_kinds?_of_meaning? (h : meaning? I commands = some M) :
    ∃ Γ, kinds? commands = some Γ ∧ M.Fits Γ := by
  have hfold : ∀ (M₀ : Env) (Γ₀ : Context), M₀.Fits Γ₀ →
      commands.foldlM (Command.interpret I) M₀ = some M →
      ∃ Γ, commands.foldlM Command.check Γ₀ = some Γ ∧ M.Fits Γ := by
    clear h
    induction commands with
    | nil =>
      intro M₀ Γ₀ hΓ h
      obtain rfl : M₀ = M := by simpa using h
      exact ⟨Γ₀, rfl, hΓ⟩
    | cons c rest ih =>
      intro M₀ Γ₀ hΓ h
      rw [List.foldlM_cons, Option.bind_eq_bind, Option.bind_eq_some_iff] at h
      obtain ⟨M₁, hc, hrest⟩ := h
      obtain ⟨Γ₁, hc', hΓ₁⟩ := Command.exists_check_of_interpret hΓ hc
      rw [List.foldlM_cons, hc']
      exact ih M₁ Γ₁ hΓ₁ hrest
  exact hfold _ _ (fun _ ↦ rfl) h

theorem nodup_of_meaning? (h : meaning? I commands = some M) :
    (commands.filterMap Command.symbol?).Nodup := by
  have hfold : ∀ M₀ : Env, commands.foldlM (Command.interpret I) M₀ = some M →
      (commands.filterMap Command.symbol?).Nodup ∧
        ∀ s ∈ commands.filterMap Command.symbol?, M₀ s = none := by
    clear h
    induction commands with
    | nil => simp
    | cons c rest ih =>
      intro M₀ h
      rw [List.foldlM_cons, Option.bind_eq_bind, Option.bind_eq_some_iff] at h
      obtain ⟨M₁, hc, hrest⟩ := h
      obtain ⟨hnodup, hnone⟩ := ih M₁ hrest
      obtain ⟨s, v, hs, hM₀, rfl⟩ := Command.interpret_cases hc
      rw [List.filterMap_cons_some hs, List.nodup_cons]
      refine ⟨⟨?_, hnodup⟩, ?_⟩
      · intro hmem
        simpa using hnone s hmem
      · intro s' hs'
        rcases List.mem_cons.1 hs' with rfl | hs'
        · exact hM₀
        · exact (Env.within_update hM₀ v).eq_none (hnone s' hs')
  exact (hfold _ h).1

end Commands

end Symex.Smt
