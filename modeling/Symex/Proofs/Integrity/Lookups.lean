import Symex.Executor.Step
import Symex.Proofs.Endings
import Symex.Proofs.Refinement
import Symex.Proofs.Spaces

namespace Symex

variable {σ α β : Type}

/-- It is not that something is missing, not bound or not live. -/
abbrev Fault.Ordinary (fault : Fault) : Prop := fault ≠ .missing ∧ fault ≠ .unbound ∧ fault ≠ .ended

/-- It is not that a structural rule was broken either. -/
abbrev Fault.Mild (fault : Fault) : Prop := fault.Ordinary ∧ fault ≠ .misuse

namespace Checked

/-- Nothing that the computation looks up is missing, it breaks no rule, and `P` holds of its result. -/
abbrev Found (x : Checked α) (P : α → Prop) : Prop := Ends Fault.Mild x P

/-- Nothing that the computation looks up is missing, and it breaks no rule. -/
abbrev Plain (x : Checked α) : Prop := Found x fun _ ↦ True

variable {P : α → Prop} {x : Checked α} {f : α → Checked β}

theorem plain_pure (a : α) : Plain (pure a : Checked α) := ends_pure trivial

theorem plain_throw {fault : Fault} (h : fault.Mild) :
    Plain (throw fault : Checked α) := ends_throw h

theorem plain_bind (hx : Plain x) (hf : ∀ a, Plain (f a)) : Plain (x >>= f) :=
  ends_bind hx fun a _ ↦ hf a

theorem plain_demand {p : Prop} [Decidable p] {fault : Fault} (h : fault.Mild) :
    Plain (demand p fault) :=
  ends_demand (fun _ ↦ h) fun _ ↦ trivial

theorem plain_checked {p : Prop} [Decidable p] {fault : Fault} {a : α}
    (h : fault.Mild) :
    Plain (do demand p fault; return a) :=
  plain_bind (plain_demand h) fun _ ↦ plain_pure a

theorem plain_foldlM {γ : Type} {g : β → γ → Checked β} {l : List γ} {b : β}
    (hg : ∀ b x, Plain (g b x)) : Plain (l.foldlM g b) :=
  ends_foldlM trivial fun x _ b _ ↦ hg b x

theorem found_mapM {γ : Type} {g : α → γ} {k : β → γ} {l : List α}
    (hf : ∀ a ∈ l, Found (f a) fun b ↦ k b = g a) : Found (l.mapM f) fun r ↦ r.map k = l.map g := by
  induction l with
  | nil => exact ends_pure rfl
  | cons a l ih =>
    rw [List.forall_mem_cons] at hf
    rw [List.mapM_cons]
    refine ends_bind hf.1 fun b hb ↦ ends_bind (ih hf.2) fun r hr ↦ ends_pure ?_
    rw [List.map_cons, List.map_cons, hb, hr]

theorem Found.ordinary (hx : Found x P) : Ends Fault.Ordinary x P := hx.weaken fun _ h ↦ h.1

theorem Plain.found (hx : Plain x) (h : ∀ a, x = .ok a → P a) : Found x P :=
  (hx.and (ends_true_iff.2 h)).mono fun _ h ↦ h.2

end Checked

open Checked

/-! ## Terms -/

theorem Bits.plain_addChecked (x y : Nat) : Plain (addChecked x y) := by
  unfold addChecked
  split
  · exact plain_pure _
  · exact plain_throw (by decide)

theorem Bits.plain_byteCountChecked (w : Nat) : Plain (byteCountChecked w) := plain_checked (by decide)

theorem Bits.plain_toSignedChecked (v w : Nat) : Plain (toSignedChecked v w) := plain_checked (by decide)

namespace Expr

theorem plain_constant (v w : Nat) : Plain (constant v w) := plain_checked (by decide)

theorem plain_mkRead (u : Updates) (i : Expr) : Plain (mkRead u i) := plain_checked (by decide)

theorem plain_mkCompare (op : CmpOp) (l r : Expr) : Plain (mkCompare op l r) := plain_checked (by decide)

theorem plain_mkEq (l r : Expr) : Plain (mkEq l r) := plain_mkCompare .eq l r

theorem plain_mkNe (l r : Expr) : Plain (mkNe l r) := plain_bind (plain_mkEq l r) fun _ ↦ plain_pure _

theorem plain_mkSelect (c t f : Expr) : Plain (mkSelect c t f) := plain_checked (by decide)

theorem plain_mkConcat (m l : Expr) : Plain (mkConcat m l) := plain_checked (by decide)

theorem plain_mkExtract (e : Expr) (o w : Nat) : Plain (mkExtract e o w) := plain_checked (by decide)

theorem plain_mkZext (e : Expr) (w : Nat) : Plain (mkZext e w) := by
  unfold mkZext
  split
  · exact plain_pure _
  · split
    · exact plain_mkExtract e 0 w
    · refine plain_bind (plain_demand (by decide)) fun _ ↦ ?_
      split <;> exact plain_pure _

theorem plain_mkSext (e : Expr) (w : Nat) : Plain (mkSext e w) := by
  unfold mkSext
  split
  · exact plain_pure _
  · split
    · exact plain_mkExtract e 0 w
    · refine plain_bind (plain_demand (by decide)) fun _ ↦ ?_
      split <;> exact plain_pure _

theorem plain_mkBinary (op : BinOp) (l r : Expr) : Plain (mkBinary op l r) := plain_checked (by decide)

theorem plain_mkAll (es : List Expr) : Plain (mkAll es) := plain_foldlM fun e c ↦ plain_mkBinary .and e c

theorem plain_mkTruth (e : Expr) : Plain e.mkTruth := by
  unfold mkTruth
  split
  · exact plain_pure _
  · exact plain_bind (plain_constant 0 _) fun _ ↦ plain_mkNe _ _

theorem plain_build (p : IntPredicate) (l r : Expr) : Plain (p.build l r) := by
  cases p with
  | ne => exact plain_mkNe l r
  | _ => exact plain_mkCompare _ _ _

end Expr

theorem Updates.plain_extend (u : Updates) (i e : Expr) : Plain (u.extend i e) := plain_checked (by decide)

theorem Updates.plain_overlay (u : Updates) {pick : Nat → Checked (Option Expr)} (hpick : ∀ i, Plain (pick i))
    (n : Nat) : Plain (u.overlay pick n) := by
  refine plain_foldlM fun u i ↦ plain_bind (hpick i) fun _ ↦ ?_
  split
  · exact Updates.plain_extend _ _ _
  · exact plain_pure _

theorem plain_rebuilt {p : Prop} [Decidable p] {e : Expr} {x : Checked Expr} {f : Expr → Expr}
    (hx : Plain x) : Plain (do return f (← if p then pure e else x)) := by
  split
  · exact plain_pure _
  · exact plain_bind hx fun _ ↦ plain_pure _

mutual

theorem Rebuilding.plain_apply (w : Rebuilding) (e : Expr) : Plain (w.apply e) := by
  unfold apply
  split
  · exact plain_pure _
  · cases e with
    | const v width => exact plain_pure _
    | read u i =>
      exact plain_bind (plain_apply w i) fun _ ↦ plain_bind (plain_applyUpdates w u) fun _ ↦
        plain_rebuilt (Expr.plain_mkRead _ _)
    | select c t f =>
      exact plain_bind (plain_apply w c) fun _ ↦ plain_bind (plain_apply w t) fun _ ↦
        plain_bind (plain_apply w f) fun _ ↦ plain_rebuilt (Expr.plain_mkSelect _ _ _)
    | concat m l =>
      exact plain_bind (plain_apply w m) fun _ ↦ plain_bind (plain_apply w l) fun _ ↦
        plain_rebuilt (Expr.plain_mkConcat _ _)
    | extract x offset width =>
      exact plain_bind (plain_apply w x) fun _ ↦ plain_rebuilt (Expr.plain_mkExtract _ _ _)
    | zext x width => exact plain_bind (plain_apply w x) fun _ ↦ plain_rebuilt (Expr.plain_mkZext _ _)
    | sext x width => exact plain_bind (plain_apply w x) fun _ ↦ plain_rebuilt (Expr.plain_mkSext _ _)
    | not x => exact plain_bind (plain_apply w x) fun _ ↦ plain_pure _
    | binary op l r =>
      exact plain_bind (plain_apply w l) fun _ ↦ plain_bind (plain_apply w r) fun _ ↦
        plain_rebuilt (Expr.plain_mkBinary _ _ _)
    | compare op l r =>
      exact plain_bind (plain_apply w l) fun _ ↦ plain_bind (plain_apply w r) fun _ ↦
        plain_rebuilt (Expr.plain_mkCompare _ _ _)

theorem Rebuilding.plain_applyUpdates (w : Rebuilding) (u : Updates) : Plain (w.applyUpdates u) := by
  cases u with
  | base a =>
    unfold applyUpdates
    exact plain_pure _
  | write i x older =>
    unfold applyUpdates
    exact plain_bind (plain_apply w i) fun _ ↦ plain_bind (plain_apply w x) fun _ ↦
      plain_bind (plain_applyUpdates w older) fun _ ↦ Updates.plain_extend _ _ _

end

theorem Expr.plain_replace (s : Substitution) (e : Expr) : Plain (e.replace s) := by
  rw [Expr.replace, Rebuilding.run_eq_apply]
  exact Rebuilding.plain_apply _ e

/-! ## Constraints -/

namespace ConstraintSet

theorem plain_simplify (c : ConstraintSet) (e : Expr) : Plain (c.simplify e) := by
  unfold simplify
  split
  · exact plain_pure _
  · exact Expr.plain_replace _ e

theorem plain_takeAffected (c : ConstraintSet) (target value : Expr) :
    Plain (c.takeAffected target value) := by
  unfold takeAffected
  refine plain_bind ?_ fun _ ↦ plain_pure _
  rw [← Array.foldlM_toList]
  refine plain_foldlM fun p e ↦ plain_bind (Expr.plain_replace _ e) fun _ ↦ ?_
  split <;> exact plain_pure _

theorem plain_addWithin (fuel : Nat) (c : ConstraintSet) (e : Expr) : Plain (c.addWithin fuel e) := by
  induction fuel generalizing c e with
  | zero => exact plain_throw (by decide)
  | succ fuel ih =>
    unfold addWithin
    refine plain_bind (plain_demand (by decide)) fun _ ↦ plain_bind (c.plain_simplify e) fun e ↦ ?_
    split
    · exact plain_checked (by decide)
    · exact plain_bind (ih _ _) fun _ ↦ ih _ _
    · exact plain_bind (plain_takeAffected _ _ _) fun _ ↦
        plain_bind (plain_foldlM fun _ _ ↦ ih _ _) fun _ ↦ plain_pure _
    · exact plain_pure _

theorem plain_add (c : ConstraintSet) (e : Expr) : Plain (c.add e) := plain_addWithin _ c e

end ConstraintSet

/-! ## Contents -/

namespace ObjectState

variable (x : ObjectState) (i : Nat) (e offset : Expr)

theorem found_withBytes {object : MemoryObject} {bytes : ByteArray} (h : bytes.size = object.size) :
    Found (withBytes object bytes) (·.object = object) :=
  ends_bind (P := fun _ ↦ True) (ends_demand (fun hne ↦ absurd h hne) fun _ ↦ trivial) fun _ _ ↦ ends_pure rfl

theorem found_zeroed (object : MemoryObject) : Found (zeroed object) (·.object = object) :=
  ends_bind (plain_demand (by decide)) fun _ _ ↦ ends_pure rfl

theorem found_ofArray (object : MemoryObject) (array : NamedArray) :
    Found (ofArray object array) (·.object = object) :=
  ends_bind (found_zeroed object) fun _ h ↦ ends_pure h

theorem plain_entry {α : Type} (mask : Option (Array α)) (absent : α) : Plain (entry mask absent i) := by
  unfold entry
  split
  · exact plain_pure _
  · split
    · exact plain_pure _
    · exact plain_throw (by decide)

theorem plain_isConcrete : Plain (x.isConcrete i) := plain_entry i _ _

theorem plain_isFlushed : Plain (x.isFlushed i) := plain_entry i _ _

theorem plain_known? : Plain (x.known? i) := plain_entry i _ _

theorem plain_form : Plain (x.form i) := by
  refine plain_bind (x.plain_isConcrete i) fun _ ↦ ?_
  split
  · exact plain_pure _
  · refine plain_bind (x.plain_isFlushed i) fun _ ↦ ?_
    split
    · exact plain_pure _
    · refine plain_bind (x.plain_known? i) fun _ ↦ ?_
      split <;> exact plain_pure _

theorem found_writeByte (b : UInt8) : Found (x.writeByte i b) (·.object = x.object) := by
  unfold writeByte
  split
  · exact ends_pure rfl
  · exact ends_throw (by decide)

theorem found_write8 : Found (x.write8 i e) (·.object = x.object) := by
  unfold write8
  split
  · exact x.found_writeByte i _
  · exact ends_bind (plain_demand (by decide)) fun _ _ ↦ ends_pure rfl

theorem plain_newByte? : Plain (x.newByte? i) := by
  refine plain_bind (x.plain_isFlushed i) fun _ ↦ ?_
  split
  · exact plain_pure _
  · refine plain_bind (x.plain_isConcrete i) fun _ ↦ ?_
    split <;> exact plain_pure _

theorem plain_newTerm? : Plain (x.newTerm? i) := by
  refine plain_bind (x.plain_known? i) fun _ ↦ ?_
  split
  · exact plain_pure _
  · refine plain_bind (x.plain_isFlushed i) fun _ ↦ ?_
    split <;> exact plain_pure _

theorem plain_flushedUpdates : Plain x.flushedUpdates := by
  rw [flushedUpdates_eq]
  refine plain_bind ?_ fun u ↦ ?_
  · unfold lowerLayer
    split
    · exact Updates.plain_overlay _ x.plain_newByte? _
    · exact plain_pure _
  · split
    · exact Updates.plain_overlay _ x.plain_newTerm? _
    · exact plain_pure _

theorem plain_readByte : Plain (x.readByte i) := by
  rw [readByte_eq]
  refine plain_bind (x.plain_form i) fun f ↦ ?_
  split
  · split
    · exact plain_pure _
    · exact plain_throw (by decide)
  · exact plain_pure _
  · split
    · exact plain_bind (plain_pure _) fun _ ↦ Expr.plain_mkRead _ _
    · exact plain_bind x.plain_flushedUpdates fun _ ↦ Expr.plain_mkRead _ _

theorem plain_readByteAt : Plain (x.readByteAt offset) :=
  plain_bind (Expr.plain_mkZext offset 32) fun _ ↦
    plain_bind x.plain_flushedUpdates fun _ ↦ Expr.plain_mkRead _ _

theorem found_writeByteAt : Found (x.writeByteAt offset e) (·.object = x.object) :=
  ends_bind x.plain_flushedUpdates fun _ _ ↦ ends_bind (Expr.plain_mkZext offset 32) fun _ _ ↦
    ends_bind (Updates.plain_extend _ _ _) fun _ _ ↦ ends_pure rfl

theorem plain_place : Plain (place offset i) :=
  plain_bind (Expr.plain_constant i _) fun _ ↦ Expr.plain_mkBinary .add _ _

theorem plain_readByteAfter : Plain (x.readByteAfter offset i) := by
  unfold readByteAfter
  split
  · exact plain_bind (Bits.plain_addChecked _ _) fun _ ↦ x.plain_readByte _
  · exact plain_bind (plain_place i offset) fun _ ↦ x.plain_readByteAt _

theorem plain_read (w : Nat) : Plain (x.read offset w) := by
  refine plain_bind (plain_demand (by decide)) fun _ ↦ plain_bind (Bits.plain_byteCountChecked w) fun n ↦ ?_
  refine plain_bind (plain_foldlM fun low i ↦ plain_bind (x.plain_readByteAfter i offset) fun _ ↦ ?_)
    fun _ ↦ Expr.plain_mkExtract _ _ _
  split
  · exact plain_pure _
  · exact plain_bind (Expr.plain_mkConcat _ _) fun _ ↦ plain_pure _

theorem found_write : Found (x.write offset e) (·.object = x.object) := by
  have hwhole : Plain (wholeBytes e) := by
    unfold wholeBytes
    split
    · exact plain_pure _
    · exact Expr.plain_mkZext _ _
  rw [write_eq]
  refine ends_bind hwhole fun value _ ↦ ends_foldlM rfl fun i _ y hy ↦ ?_
  refine ends_bind (Expr.plain_mkExtract _ _ _) fun byte _ ↦ ?_
  unfold writeAfter
  split
  · exact ends_bind (Bits.plain_addChecked _ _) fun _ _ ↦ (y.found_write8 _ _).mono fun _ h ↦ h.trans hy
  · exact ends_bind (plain_place i offset) fun _ _ ↦ (y.found_writeByteAt _ _).mono fun _ h ↦ h.trans hy

end ObjectState

theorem Exec.found_copyBytes (old contents : ObjectState) :
    Found (copyBytes old contents) (·.object = contents.object) :=
  ends_foldlM rfl fun i _ x hx ↦ Checked.ends_bind (old.plain_readByte i) fun _ _ ↦
    (x.found_write8 i _).mono fun _ h ↦ h.trans hx

theorem State.plain_differingBytes (a b : ObjectState) : Plain (differingBytes a b) := by
  unfold differingBytes List.foldrM
  exact plain_foldlM fun l i ↦ plain_bind (a.plain_readByte i) fun _ ↦
    plain_bind (b.plain_readByte i) fun _ ↦ plain_pure _

namespace MemoryObject

variable (o : MemoryObject) (pointer offset : Expr) (bytes : Nat)

theorem plain_offset : Plain (o.offset pointer) := Expr.plain_mkBinary .sub _ _

theorem plain_pointerInside : Plain (o.pointerInside pointer) := by
  refine plain_bind (o.plain_offset pointer) fun offset ↦ ?_
  unfold offsetInside
  split <;> exact Expr.plain_mkCompare _ _ _

theorem plain_accessInside : Plain (o.accessInside offset bytes) := by
  unfold accessInside
  split
  · exact plain_pure _
  · exact plain_bind (Bits.plain_addChecked _ _) fun _ ↦ Expr.plain_mkCompare _ _ _

theorem plain_pointerAccessInside : Plain (o.pointerAccessInside pointer bytes) :=
  plain_bind (o.plain_offset pointer) fun _ ↦ o.plain_accessInside _ bytes

end MemoryObject

theorem ProcessTree.ordinary_split (t : ProcessTree) (n : NodeId) (left right : StateId) :
    Ends Fault.Ordinary (t.split n left right) fun _ ↦ True :=
  ends_bind (P := fun _ ↦ True) (ends_demand (fun _ ↦ by decide) fun _ ↦ trivial) fun _ _ ↦ ends_pure trivial

theorem ProcessTree.ordinary_merge (t : ProcessTree) (first second : NodeId) (state : StateId) :
    Ends Fault.Ordinary (t.merge first second state) fun _ ↦ True :=
  ends_bind (P := fun _ ↦ True) (ends_demand (fun _ ↦ by decide) fun _ ↦ trivial) fun _ _ ↦ ends_pure trivial

/-! ## Questions -/

/-- Whatever the solver answers, nothing that the search looks up is missing, and `P` holds of its
result. -/
def Looks (search : StateT (Solver σ) Checked α) (P : α → Prop) : Prop :=
  ∀ s : Solver σ, Found (search.run s) fun p ↦ P p.1

section

variable {P : α → Prop} {Q : β → Prop} {search : StateT (Solver σ) Checked α}

theorem looks_pure {a : α} (h : P a) : Looks (pure a : StateT (Solver σ) Checked α) P :=
  fun _ ↦ ends_pure h

theorem looks_bind {f : α → StateT (Solver σ) Checked β} (h : Looks search P)
    (hf : ∀ a, P a → Looks (f a) Q) : Looks (search >>= f) Q := fun s ↦
  ends_bind (h s) fun p hp ↦ hf p.1 hp p.2

theorem looks_lift {x : Checked α} (h : Plain x) :
    Looks (liftM x : StateT (Solver σ) Checked α) fun _ ↦ True := fun _ ↦
  ends_bind h fun _ _ ↦ ends_pure trivial

end

namespace Ask

variable {P : α → Prop} {Q : β → Prop} {x : Ask σ α}

/-- Whatever the solver answers, nothing that the computation looks up is missing, and `P` holds of its
answer. -/
def Looks (x : Ask σ α) (P : α → Prop) : Prop := Symex.Looks x.run fun r ↦ ∀ a, r = .ok a → P a

theorem looks_pure {a : α} (h : P a) : (pure a : Ask σ α).Looks P :=
  Symex.looks_pure (by rintro _ ⟨⟩; exact h)

theorem looks_throw (e : SolverError) : (throw e : Ask σ α).Looks P := Symex.looks_pure nofun

theorem looks_bind {f : α → Ask σ β} (h : x.Looks P) (hf : ∀ a, P a → (f a).Looks Q) :
    (x >>= f).Looks Q :=
  Symex.looks_bind h fun r hr ↦ by
    cases r with
    | ok a => exact hf a (hr a rfl)
    | error e => exact Symex.looks_pure nofun

theorem looks_checked {c : Checked α} (h : Plain c) : (checked c : Ask σ α).Looks fun _ ↦ True :=
  fun _ ↦ ends_bind h fun _ _ ↦ ends_pure fun _ _ ↦ trivial

end Ask

namespace Solver

variable (c : ConstraintSet) (e : Expr)

theorem looks_consult (ask : Backend σ → Query → σ → Except SolverError α × σ) :
    (consult c e ask).Looks fun _ ↦ True := fun _ ↦ ends_pure fun _ _ ↦ trivial

theorem looks_now : Looks (now : StateT (Solver σ) Checked Nat) fun _ ↦ True := fun _ ↦ ends_pure trivial

theorem looks_prepare : (prepare c e : Ask σ Expr).Looks fun _ ↦ True := fun s ↦ by
  change Found (if s.simplifies then _ else _) _
  split
  · exact ends_bind (c.plain_simplify e) fun _ _ ↦ ends_pure fun _ _ ↦ trivial
  · exact ends_bind (plain_pure e) fun _ _ ↦ ends_pure fun _ _ ↦ trivial

theorem looks_evaluate : (evaluate c e : Ask σ Validity).Looks fun _ ↦ True := by
  unfold evaluate
  split
  · exact Ask.looks_pure trivial
  · refine Ask.looks_bind (looks_prepare c e) fun e _ ↦ ?_
    split
    · exact Ask.looks_pure trivial
    · exact looks_consult c e _

theorem looks_mustBeTrue : (mustBeTrue c e : Ask σ Bool).Looks fun _ ↦ True := by
  unfold mustBeTrue
  split
  · exact Ask.looks_pure trivial
  · refine Ask.looks_bind (looks_prepare c e) fun e _ ↦ ?_
    split
    · exact Ask.looks_pure trivial
    · exact looks_consult c e _

theorem looks_mayBeTrue : (mayBeTrue c e : Ask σ Bool).Looks fun _ ↦ True :=
  Ask.looks_bind (looks_mustBeTrue c _) fun _ _ ↦ Ask.looks_pure trivial

theorem looks_value : (value c e : Ask σ Expr).Looks fun _ ↦ True := by
  unfold value
  split
  · exact Ask.looks_pure trivial
  · refine Ask.looks_bind (looks_prepare c e) fun e _ ↦ ?_
    split
    · exact Ask.looks_pure trivial
    · exact Ask.looks_bind (looks_consult c e _) fun v _ ↦ Ask.looks_checked (Expr.plain_constant v _)

theorem looks_initialValues (arrays : List NamedArray) :
    (initialValues c arrays : Ask σ _).Looks fun _ ↦ True := by
  unfold initialValues
  split
  · exact Ask.looks_pure trivial
  · exact looks_consult c _ _

theorem looks_demandWord (n : Nat) : (demandWord n : Ask σ Unit).Looks fun _ ↦ True :=
  Ask.looks_checked (plain_demand (by decide))

theorem looks_leastBound (low high : Nat) : (leastBound c e low high : Ask σ Nat).Looks fun _ ↦ True := by
  induction low, high using leastBound.induct with
  | case1 low high hlt middle ih1 ih2 =>
    unfold leastBound
    rw [if_pos hlt]
    refine Ask.looks_bind (looks_demandWord _) fun _ _ ↦ ?_
    refine Ask.looks_bind (Ask.looks_checked (plain_bind (Expr.plain_constant _ _) fun _ ↦
      Expr.plain_mkCompare .ule _ _)) fun below _ ↦ ?_
    refine Ask.looks_bind (looks_mayBeTrue c below) fun b _ ↦ ?_
    split
    · exact ih1
    · exact Ask.looks_bind (looks_demandWord _) fun _ _ ↦ ih2
  | case2 low high hle =>
    unfold leastBound
    rw [if_neg hle]
    exact Ask.looks_pure trivial

theorem looks_greatestBound (low high : Nat) :
    (greatestBound c e low high : Ask σ Nat).Looks fun _ ↦ True := by
  induction low, high using greatestBound.induct with
  | case1 low high hlt middle ih1 ih2 =>
    unfold greatestBound
    rw [if_pos hlt]
    refine Ask.looks_bind (looks_demandWord _) fun _ _ ↦ ?_
    refine Ask.looks_bind (Ask.looks_checked (plain_bind (Expr.plain_constant _ _) fun _ ↦
      Expr.plain_mkCompare .ule _ _)) fun above _ ↦ ?_
    refine Ask.looks_bind (looks_mayBeTrue c above) fun b _ ↦ ?_
    split
    · exact ih1
    · exact ih2
  | case2 low high hle =>
    unfold greatestBound
    rw [if_neg hle]
    exact Ask.looks_pure trivial

theorem looks_range : (range c e : Ask σ (Nat × Nat)).Looks fun _ ↦ True := by
  unfold range
  split
  · exact Ask.looks_pure trivial
  · refine Ask.looks_bind (looks_value c e) fun v _ ↦ ?_
    split
    · exact Ask.looks_throw _
    · exact Ask.looks_bind (looks_leastBound c e _ _) fun _ _ ↦
        Ask.looks_bind (looks_greatestBound c e _ _) fun _ _ ↦ Ask.looks_pure trivial

end Solver

/-! ## Searches for objects -/

namespace AddressSpace

variable (c : ConstraintSet) (address : Expr) {stop : Expr → Expr → Checked Expr}
  (hstop : ∀ l r, Plain (stop l r))

section

include hstop

theorem looks_firstPossible (candidates : List (ObjectKey × ObjectState)) :
    (firstPossible c address stop candidates : Ask σ _).Looks fun r ↦
      ∀ x, r = some x → x ∈ candidates.map (·.2) := by
  induction candidates with
  | nil => exact Ask.looks_pure fun _ hx ↦ absurd hx (Option.some_ne_none _).symm
  | cons p rest ih =>
    obtain ⟨key, contents⟩ := p
    refine Ask.looks_bind (Ask.looks_checked (contents.object.plain_pointerInside address)) fun inside _ ↦ ?_
    refine Ask.looks_bind (Solver.looks_mayBeTrue c inside) fun b _ ↦ ?_
    split
    · exact Ask.looks_pure (by rintro _ ⟨⟩; exact List.mem_cons_self)
    · refine Ask.looks_bind (Ask.looks_checked (hstop _ _)) fun past _ ↦ ?_
      refine Ask.looks_bind (Solver.looks_mustBeTrue c past) fun b _ ↦ ?_
      split
      · exact Ask.looks_pure fun _ hx ↦ absurd hx (Option.some_ne_none _).symm
      · exact fun s ↦ (ih s).mono fun _ h r hr x hx ↦ List.mem_cons_of_mem _ (h r hr x hx)

theorem looks_consider (limit : Nat) (contents : ObjectState) (found : List ObjectState) :
    Looks (consider c address stop limit contents found : StateT (Solver σ) Checked _)
      fun p ↦ p.1 = found ∨ p.1 = contents :: found := by
  have hturn (found' : List ObjectState) : Looks
      (consider.turn c address stop contents found' : StateT (Solver σ) Checked _)
        fun p ↦ p.1 = found' := by
    refine looks_bind (looks_lift (hstop _ _)) fun past _ ↦ ?_
    refine looks_bind (Solver.looks_mustBeTrue c past) fun r _ ↦ ?_
    split <;> exact looks_pure rfl
  refine looks_bind (looks_lift (contents.object.plain_pointerInside address)) fun inside _ ↦ ?_
  refine looks_bind (Solver.looks_mayBeTrue c inside) fun r _ ↦ ?_
  split
  · exact looks_pure (.inl rfl)
  · exact fun s ↦ (hturn found s).mono fun _ h ↦ .inl h
  · dsimp only
    split
    · refine looks_bind (Solver.looks_mustBeTrue c inside) fun r _ ↦ ?_
      split
      · exact looks_pure (.inr rfl)
      · exact looks_pure (.inr rfl)
      · split
        · exact looks_pure (.inr rfl)
        · exact fun s ↦ (hturn _ s).mono fun _ h ↦ .inr h
    · split
      · exact looks_pure (.inr rfl)
      · exact fun s ↦ (hturn _ s).mono fun _ h ↦ .inr h

theorem looks_sweep (limit : Nat) (timeout : Option Nat) (started : Nat) (candidates : List (ObjectKey × ObjectState))
    (found : List ObjectState) :
    Looks (sweep c address stop limit timeout started candidates found : StateT (Solver σ) Checked _)
      fun p ↦ ∀ x ∈ p.1, x ∈ found ∨ x ∈ candidates.map (·.2) := by
  induction candidates generalizing found with
  | nil => exact looks_pure fun _ ↦ .inl
  | cons p rest ih =>
    obtain ⟨key, contents⟩ := p
    unfold sweep
    refine looks_bind Solver.looks_now fun _ _ ↦ ?_
    split
    · exact looks_pure fun _ ↦ .inl
    · refine looks_bind (looks_consider c address hstop limit contents found) fun r hr ↦ ?_
      have hmem : ∀ x ∈ r.1, x ∈ found ∨ x ∈ ((key, contents) :: rest).map (·.2) := by
        intro x hx
        obtain hr | hr := hr
        · exact .inl (hr ▸ hx)
        · rw [hr, List.mem_cons] at hx
          exact hx.elim (fun h ↦ .inr (h ▸ List.mem_cons_self)) .inl
      split
      · rename_i found'
        refine fun s ↦ (ih found' s).mono fun p h x hx ↦ ?_
        exact (h x hx).elim (hmem x) fun h ↦ .inr (List.mem_cons_of_mem _ h)
      · exact looks_pure hmem

end

variable (m : AddressSpace)

theorem mem_toList_of_resolveOne {a : Nat} {x : ObjectState} (hm : m.objects.Sorted)
    (h : m.resolveOne a = some x) : x ∈ m.toList := by
  obtain ⟨⟨key, y⟩, hfloor, hy⟩ := Option.bind_eq_some_iff.1 h
  dsimp only at hy
  split at hy
  · obtain rfl := Option.some.inj hy
    exact List.mem_map_of_mem (AvlMap.floor?_eq_some hm hfloor).1
  · cases hy

theorem mem_toList_of_downFrom {key : ObjectKey} {x : ObjectState} (hm : m.objects.Sorted)
    (h : x ∈ (m.objects.downFrom key).map (·.2)) : x ∈ m.toList := by
  obtain ⟨p, hp, rfl⟩ := List.mem_map.1 h
  exact List.mem_map_of_mem ((AvlMap.mem_downFrom hm).1 hp).1

theorem mem_toList_of_upAfter {key : ObjectKey} {x : ObjectState} (hm : m.objects.Sorted)
    (h : x ∈ (m.objects.upAfter key).map (·.2)) : x ∈ m.toList := by
  obtain ⟨p, hp, rfl⟩ := List.mem_map.1 h
  exact List.mem_map_of_mem ((AvlMap.mem_upAfter hm).1 hp).1

theorem looks_resolveSymbolic (hm : m.objects.Sorted) :
    (m.resolveSymbolic c address : Ask σ _).Looks fun r ↦ ∀ x, r = some x → x ∈ m.toList := by
  unfold resolveSymbolic
  split
  · exact Ask.looks_pure fun x hx ↦ m.mem_toList_of_resolveOne hm hx
  · refine Ask.looks_bind (Solver.looks_value c address) fun v _ ↦ ?_
    dsimp only
    split
    · rename_i x hx
      exact Ask.looks_pure (by rintro _ ⟨⟩; exact m.mem_toList_of_resolveOne hm hx)
    · refine Ask.looks_bind (looks_firstPossible c address (fun _ _ ↦ Expr.plain_mkCompare _ _ _) _)
        fun r hr ↦ ?_
      split
      · exact Ask.looks_pure (by rintro _ ⟨⟩; exact m.mem_toList_of_downFrom hm (hr _ rfl))
      · refine fun s ↦ (looks_firstPossible c address (fun _ _ ↦ Expr.plain_mkCompare _ _ _) _ s).mono ?_
        exact fun _ h r hr x hx ↦ m.mem_toList_of_upAfter hm (h r hr x hx)

theorem looks_resolve (hm : m.objects.Sorted) (limit : Nat) (timeout : Option Nat) :
    Looks (m.resolve c address limit timeout : StateT (Solver σ) Checked _)
      fun r ↦ ∀ x ∈ r.objects, x ∈ m.toList := by
  unfold resolve
  split
  · exact looks_pure fun x hx ↦ m.mem_toList_of_resolveOne hm (Option.mem_toList.1 hx)
  · refine looks_bind Solver.looks_now fun started _ ↦ looks_bind (Solver.looks_value c address) fun r _ ↦ ?_
    split
    · exact looks_pure fun _ hx ↦ absurd hx List.not_mem_nil
    · refine looks_bind (looks_sweep c address (fun _ _ ↦ Expr.plain_mkCompare _ _ _) _ _ _ _ _)
        fun p hp ↦ ?_
      have hdown : ∀ x ∈ p.1, x ∈ m.toList := fun x hx ↦
        (hp x hx).elim nofun (m.mem_toList_of_downFrom hm)
      dsimp only
      split
      · refine looks_bind (looks_sweep c address (fun _ _ ↦ Expr.plain_mkCompare _ _ _) _ _ _ _ _)
          fun q hq ↦ looks_pure fun x hx ↦ ?_
        exact (hq x (List.mem_reverse.1 hx)).elim (hdown x) (m.mem_toList_of_upAfter hm)
      · exact looks_bind (looks_pure (P := (· = p)) rfl) fun q hq ↦ looks_pure fun x hx ↦
          hdown x (hq ▸ List.mem_reverse.1 hx)

end AddressSpace

end Symex
