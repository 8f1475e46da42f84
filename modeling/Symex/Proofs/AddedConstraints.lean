import Mathlib.Algebra.Ring.Nat
import Symex.Proofs.Constraints

namespace Symex

namespace ConstraintSet

theorem weight_eq (s : ConstraintSet) : s.weight = (s.toList.map (·.weight)).sum := rfl

/-- The set `s` and the constraints `changed` together say the same as `cs` wherever `E` holds. -/
structure Taken (E : Assignment → Prop) (cs : List Expr) (s : ConstraintSet)
    (changed : List Expr) : Prop where
  valid : s.Valid
  truths : ∀ c ∈ changed, c.IsTruth
  weight_le : s.weight + (changed.map (·.weight)).sum ≤ (cs.map (·.weight)).sum
  readsIn : ∀ {S : NamedArray → Prop}, (∀ c ∈ cs, c.ReadsIn S) →
    ∀ c ∈ s.toList ++ changed, c.ReadsIn S
  holds_iff : ∀ {a : Assignment}, a.free → E a →
    (a.HoldsAll s.toList ∧ a.HoldsAll changed ↔ a.HoldsAll cs)

theorem Taken.of_equiv {E : Assignment → Prop} {cs ds : List Expr} {s : ConstraintSet}
    {changed : List Expr} (h : Taken E ds s changed)
    (hw : (ds.map (·.weight)).sum ≤ (cs.map (·.weight)).sum)
    (hr : ∀ {S : NamedArray → Prop}, (∀ c ∈ cs, c.ReadsIn S) → ∀ c ∈ ds, c.ReadsIn S)
    (hiff : ∀ {a : Assignment}, a.free → E a → (a.HoldsAll ds ↔ a.HoldsAll cs)) :
    Taken E cs s changed :=
  ⟨h.valid, h.truths, Nat.le_trans h.weight_le hw, fun hS ↦ h.readsIn (hr hS),
    fun ha hE ↦ (h.holds_iff ha hE).trans (hiff ha hE)⟩

theorem Justified.forget {c : Expr} {kept rest : List Expr} {known : Substitution}
    (h : Justified (kept ++ c :: rest) known) :
    Justified (kept ++ rest) (known.erase (replacement c).1) := by
  intro k v hk
  rw [Std.HashMap.getElem?_erase] at hk
  split at hk
  · simp at hk
  · rename_i hne
    obtain ⟨d, hd, hr⟩ := h k v hk
    refine ⟨d, ?_, hr⟩
    have hdc : d ≠ c := by
      rintro rfl
      simp [hr] at hne
    simpa [hdc] using hd

def take (sub : Substitution) (p : ConstraintSet × List Expr) (c : Expr) :
    Checked (ConstraintSet × List Expr) := do
  let c' ← c.replace sub
  if c' = c then return ({ p.1 with all := p.1.all.push c }, p.2)
  else return (p.1.forget c, c' :: p.2)

theorem takeAffected_eq (s : ConstraintSet) (target value : Expr) :
    s.takeAffected target value = (do
      let p ← s.toList.foldlM (take (Std.HashMap.insert {} target value)) ({ s with all := #[] }, [])
      return (p.1, p.2.reverse)) := by
  rw [toList, Array.foldlM_toList]
  rfl

theorem taken_foldlM {E : Assignment → Prop} {sub : Substitution}
    (hsub : ∀ {k v : Expr}, k.WellFormed → sub[k]? = some v → RefinesOn E k v) {cs : List Expr}
    (hcs : ∀ c ∈ cs, c.IsTruth) (s : ConstraintSet) (changed : List Expr)
    (hs : ∀ c ∈ s.toList, c.IsTruth) (hch : ∀ c ∈ changed, c.IsTruth)
    (hj : Justified (s.toList ++ cs) s.known) :
    ∃ s' changed', cs.foldlM (take sub) (s, changed) = .ok (s', changed') ∧
      Taken E (s.toList ++ changed ++ cs) s' changed' := by
  induction cs generalizing s changed with
  | nil =>
    refine ⟨s, changed, rfl, ⟨hs, by simpa using hj⟩, hch, ?_, fun hS ↦ ?_, fun ha hE ↦ ?_⟩
    · apply Nat.le_of_eq
      rw [List.append_nil, List.map_append, List.sum_append_nat, weight_eq]
    · simpa using hS
    · rw [List.append_nil, Assignment.holdsAll_append]
  | cons c cs ih =>
    rw [List.forall_mem_cons] at hcs
    obtain ⟨c', hc', href⟩ := Expr.exists_replace hcs.1.1 hsub
    rw [List.foldlM_cons]
    simp only [take, hc', Checked.ok_bind]
    by_cases hcc : c' = c
    · simp only [hcc, if_true, pure_bind]
      have hlist : toList { s with all := s.all.push c } = s.toList ++ [c] := by simp [toList]
      obtain ⟨s', changed', hfold, htaken⟩ :=
        ih hcs.2 { s with all := s.all.push c } changed
          (by rw [hlist]; exact List.forall_mem_append.2 ⟨hs, by simpa using hcs.1⟩) hch
          (by rw [hlist]; simpa using hj)
      refine ⟨s', changed', hfold, htaken.of_equiv ?_ (fun hS d hd ↦ ?_) fun _ _ ↦ ?_⟩
      · simp only [hlist, List.map_append, List.sum_append_nat, List.map_cons, List.sum_cons, List.map_nil,
          List.sum_nil]
        omega
      · apply hS d
        simp only [hlist, List.mem_append, List.mem_cons, List.not_mem_nil] at hd ⊢
        grind
      · simp only [hlist, Assignment.holdsAll_append, Assignment.holdsAll_cons,
          Assignment.holdsAll_nil]
        grind
    · simp only [hcc, if_false, pure_bind]
      have hlist : (s.forget c).toList = s.toList := by rw [forget_eq]; rfl
      obtain ⟨s', changed', hfold, htaken⟩ :=
        ih hcs.2 (s.forget c) (c' :: changed) (by rwa [hlist])
          (List.forall_mem_cons.2 ⟨hcs.1.of_refinesOn href, hch⟩)
          (by rw [hlist, forget_eq]; exact hj.forget)
      refine ⟨s', changed', hfold, htaken.of_equiv ?_ (fun hS d hd ↦ ?_) fun ha hE ↦ ?_⟩
      · have := href.weight_le trivial
        simp only [hlist, List.map_append, List.sum_append_nat, List.map_cons, List.sum_cons]
        omega
      · have hcS := href.readsIn trivial (hS c (by simp))
        simp only [hlist, List.mem_append, List.mem_cons] at hd
        obtain (hd | rfl | hd) | hd := hd
        · exact hS d (by simp [hd])
        · exact hcS
        · exact hS d (by simp [hd])
        · exact hS d (by simp [hd])
      · have := href.holds_iff ha hE
        simp only [hlist, Assignment.holdsAll_append, Assignment.holdsAll_cons]
        grind

theorem Valid.exists_takeAffected {s : ConstraintSet} (hs : s.Valid) {v w : Nat} {target : Expr}
    (hc : (Expr.compare .eq (.const v w) target).IsTruth) :
    ∃ s' changed, s.takeAffected target (.const v w) = .ok (s', changed) ∧
      Taken (·.Holds (.compare .eq (.const v w) target)) s.toList s' changed := by
  have hsub : ∀ {k x : Expr}, k.WellFormed →
      (Std.HashMap.insert {} target (.const v w) : Substitution)[k]? = some x →
      RefinesOn (·.Holds (.compare .eq (.const v w) target)) k x := by
    intro k x _ hk
    rw [Std.HashMap.getElem?_insert] at hk
    split at hk
    · rename_i heq
      obtain rfl : target = k := by simpa using heq
      obtain rfl : .const v w = x := by simpa using hk
      exact replacement_refinesOn hc
    · simp at hk
  obtain ⟨s', changed, hfold, htaken⟩ := taken_foldlM hsub hs.truths { s with all := #[] } []
    (by simp [toList]) (by simp) hs.justified
  refine ⟨s', changed.reverse, ?_, htaken.valid, ?_, ?_, fun hS ↦ ?_, fun ha hE ↦ ?_⟩
  · rw [takeAffected_eq, hfold]
    rfl
  · simpa using htaken.truths
  · rw [List.map_reverse, List.sum_reverse_nat]
    exact htaken.weight_le
  · simpa using htaken.readsIn hS
  · rw [Assignment.holdsAll_reverse]
    exact htaken.holds_iff ha hE

/-! ## Adding constraints -/

/-- The set `s'` says what `s` and the constraints `cs` say together. -/
structure Added (s : ConstraintSet) (cs : List Expr) (s' : ConstraintSet) : Prop where
  valid : s'.Valid
  weight_le : s'.weight ≤ s.weight + (cs.map (·.weight)).sum
  readsIn : ∀ {S : NamedArray → Prop}, (∀ c ∈ s.toList ++ cs, c.ReadsIn S) →
    ∀ c ∈ s'.toList, c.ReadsIn S
  holds_iff : ∀ {a : Assignment}, a.free →
    (a.HoldsAll s'.toList ↔ a.HoldsAll s.toList ∧ a.HoldsAll cs)

theorem Added.nil {s : ConstraintSet} (hs : s.Valid) : Added s [] s :=
  ⟨hs, by simp, fun hS ↦ by simpa using hS, by simp⟩

theorem Added.append {s s' s'' : ConstraintSet} {cs ds : List Expr} (h : Added s cs s')
    (h' : Added s' ds s'') : Added s (cs ++ ds) s'' := by
  refine ⟨h'.valid, ?_, fun hS ↦ h'.readsIn ?_, fun ha ↦ ?_⟩
  · have h1 := h.weight_le
    have h2 := h'.weight_le
    rw [List.map_append, List.sum_append_nat]
    omega
  · rw [← List.append_assoc, List.forall_mem_append] at hS
    exact List.forall_mem_append.2 ⟨h.readsIn hS.1, hS.2⟩
  · rw [h'.holds_iff ha, h.holds_iff ha, Assignment.holdsAll_append, and_assoc]

theorem Added.of_simplified {s s' : ConstraintSet} {c c' : Expr}
    (hc : RefinesOn (·.HoldsAll s.toList) c c') (h : Added s [c'] s') : Added s [c] s' := by
  refine ⟨h.valid, ?_, fun hS ↦ h.readsIn ?_, fun ha ↦ ?_⟩
  · have h1 := h.weight_le
    have h2 := hc.weight_le trivial
    simp only [List.map_cons, List.sum_cons, List.map_nil, List.sum_nil] at h1 ⊢
    omega
  · rw [List.forall_mem_append, List.forall_mem_singleton] at hS ⊢
    exact ⟨hS.1, hc.readsIn trivial hS.2⟩
  · rw [h.holds_iff ha]
    simp only [Assignment.holdsAll_cons, Assignment.holdsAll_nil, and_true]
    exact and_congr_right fun hs ↦ (hc.holds_iff ha hs).symm

/-- A constraint goes to the end of the set, with the replacement it justifies. -/
def push (s : ConstraintSet) (c : Expr) : ConstraintSet :=
  { all := s.all.push c, known := s.known.insert (replacement c).1 (replacement c).2 }

theorem toList_push (s : ConstraintSet) (c : Expr) : (s.push c).toList = s.toList ++ [c] := by
  simp [push, toList]

theorem added_push {s : ConstraintSet} (hs : s.Valid) {c : Expr} (hc : c.IsTruth) :
    Added s [c] (s.push c) := by
  refine ⟨⟨?_, fun k v hk ↦ ?_⟩, ?_, fun hS ↦ ?_, fun _ ↦ ?_⟩
  · rw [toList_push, List.forall_mem_append]
    exact ⟨hs.truths, by simpa using hc⟩
  · rw [push, Std.HashMap.getElem?_insert] at hk
    rw [toList_push]
    split at hk
    · rename_i heq
      refine ⟨c, by simp, ?_⟩
      obtain hk1 : (replacement c).1 = k := by simpa using heq
      obtain hk2 : (replacement c).2 = v := by simpa using hk
      rw [← hk1, ← hk2]
    · obtain ⟨d, hd, hr⟩ := hs.justified k v hk
      exact ⟨d, by simp [hd], hr⟩
  · apply Nat.le_of_eq
    rw [weight_eq, toList_push, List.map_append, List.sum_append_nat, weight_eq]
  · rwa [toList_push]
  · rw [toList_push, Assignment.holdsAll_append]

/-- What is done with a constraint after it has been simplified. -/
def addSimplified (fuel : Nat) (s : ConstraintSet) (c : Expr) : Checked ConstraintSet :=
  match c with
  | .const v _ => do
    demand (v ≠ 0) .infeasible
    return s
  | .binary .and l r => [l, r].foldlM (addWithin fuel) s
  | .compare .eq (.const v w) target => do
    let p ← s.takeAffected target (.const v w)
    return (← p.2.foldlM (addWithin fuel) p.1).push (.compare .eq (.const v w) target)
  | c => return s.push c

variable {fuel : Nat} {s s' : ConstraintSet}

theorem addSimplified_of_ne {c : Expr} (hconst : ∀ v w, c = .const v w → False)
    (hand : ∀ l r, c = .binary .and l r → False)
    (heq : ∀ v w t, c = .compare .eq (.const v w) t → False) :
    addSimplified fuel s c = pure (s.push c) := by
  unfold addSimplified
  split
  · exact (hconst _ _ rfl).elim
  · exact (hand _ _ rfl).elim
  · exact (heq _ _ _ rfl).elim
  · rfl

theorem addWithin_succ (fuel : Nat) (s : ConstraintSet) (c : Expr) :
    addWithin (fuel + 1) s c = (do
      demand (c.width = 1) .width
      addSimplified fuel s (← s.simplify c)) := by
  rw [addWithin]
  congr
  funext _
  congr
  funext c'
  split
  · rfl
  · simp [addSimplified]
  · rfl
  · rename_i hconst hand heq
    rw [addSimplified_of_ne hconst hand heq, push, replacement_of_ne heq]

theorem added_foldlM {f : ConstraintSet → Expr → Checked ConstraintSet}
    (hf : ∀ {s c s'}, s.Valid → c.WellFormed → f s c = .ok s' → Added s [c] s')
    {cs : List Expr} (hs : s.Valid) (hcs : ∀ c ∈ cs, c.WellFormed)
    (h : cs.foldlM f s = .ok s') : Added s cs s' := by
  induction cs generalizing s with
  | nil =>
    obtain rfl : s = s' := by simpa using h
    exact .nil hs
  | cons c cs ihcs =>
    rw [List.forall_mem_cons] at hcs
    rw [List.foldlM_cons, Checked.bind_eq_ok] at h
    obtain ⟨t, ht, h⟩ := h
    have hadded := hf hs hcs.1 ht
    exact hadded.append (ihcs hadded.valid hcs.2 h)

theorem added_equation {v w : Nat} {target : Expr} {t : ConstraintSet} {changed : List Expr}
    (hc : (Expr.compare .eq (.const v w) target).IsTruth)
    (ht : Taken (·.Holds (.compare .eq (.const v w) target)) s.toList t changed)
    (h : Added t changed s') :
    Added s [.compare .eq (.const v w) target] (s'.push (.compare .eq (.const v w) target)) := by
  have hp := added_push h.valid hc
  refine ⟨hp.valid, ?_, fun hS ↦ hp.readsIn ?_, fun ha ↦ ?_⟩
  · have h1 := hp.weight_le
    have h2 := h.weight_le
    have h3 := ht.weight_le
    rw [weight_eq s]
    omega
  · rw [List.forall_mem_append] at hS ⊢
    exact ⟨h.readsIn (ht.readsIn hS.1), hS.2⟩
  · rw [hp.holds_iff ha, h.holds_iff ha]
    simp only [Assignment.holdsAll_cons, Assignment.holdsAll_nil, and_true]
    exact and_congr_left fun hE ↦ ht.holds_iff ha hE

theorem added_conjunction {l r : Expr} (hc : (Expr.binary .and l r).IsTruth)
    (h : Added s [l, r] s') : Added s [.binary .and l r] s' := by
  refine ⟨h.valid, ?_, fun hS ↦ h.readsIn ?_, fun ha ↦ ?_⟩
  · have h1 := h.weight_le
    simp only [List.map_cons, List.sum_cons, List.map_nil, List.sum_nil, Expr.weight_binary] at h1 ⊢
    omega
  · rw [List.forall_mem_append, List.forall_mem_singleton] at hS
    simp only [Expr.ReadsIn] at hS
    rw [List.forall_mem_append, List.forall_mem_cons, List.forall_mem_singleton]
    exact hS
  · rw [h.holds_iff ha]
    simp [Assignment.holds_and ha hc]

theorem added_of_addSimplified
    (ih : ∀ {s c s'}, s.Valid → c.WellFormed → addWithin fuel s c = .ok s' → Added s [c] s')
    (hs : s.Valid) {c : Expr} (hc : c.IsTruth) (h : addSimplified fuel s c = .ok s') :
    Added s [c] s' := by
  unfold addSimplified at h
  split at h
  · rename_i v w
    simp only [Checked.bind_eq_ok, demand_eq_ok, exists_const, Checked.pure_eq_ok] at h
    obtain ⟨hv, rfl⟩ := h
    refine ⟨hs, by simp, fun hS c hc ↦ hS c (by simp [hc]), fun ha ↦ ?_⟩
    have hholds : ∀ a : Assignment, a.Holds (.const v w) :=
      fun a ↦ ⟨v, Assignment.eval_const a v w, hv⟩
    simp [hholds]
  · rename_i l r
    have hparts : ∀ c ∈ [l, r], c.WellFormed := by simpa using ⟨hc.and.1.1, hc.and.2.1⟩
    exact added_conjunction hc (added_foldlM ih hs hparts h)
  · obtain ⟨t, changed, htake, ht⟩ := hs.exists_takeAffected hc
    simp only [htake, Checked.ok_bind, Checked.bind_eq_ok, Checked.pure_eq_ok] at h
    obtain ⟨t', hfold, rfl⟩ := h
    exact added_equation hc ht (added_foldlM ih ht.valid (fun c hc ↦ (ht.truths c hc).1) hfold)
  · obtain rfl : s.push c = s' := by simpa using h
    exact added_push hs hc

theorem added_of_addWithin {c : Expr} (hs : s.Valid) (hc : c.WellFormed)
    (h : addWithin fuel s c = .ok s') : Added s [c] s' := by
  induction fuel generalizing s s' c with
  | zero => cases h
  | succ fuel ih =>
    rw [addWithin_succ] at h
    simp only [Checked.bind_eq_ok, demand_eq_ok, exists_const] at h
    obtain ⟨hw, c', hc', h⟩ := h
    obtain ⟨c'', hc'', href⟩ := hs.exists_simplify hc
    obtain rfl : c' = c'' := Except.ok.inj (hc'.symm.trans hc'')
    refine .of_simplified href ?_
    exact added_of_addSimplified ih hs (.of_refinesOn ⟨hc, hw⟩ href) h

/-! ## Consistent constraints can be added -/

variable {a : Assignment}

theorem exists_foldlM (ha : a.free)
    (ih : ∀ {s c}, s.Valid → c.IsTruth → a.HoldsAll s.toList → a.Holds c →
      s.weight + c.weight < fuel → ∃ s', addWithin fuel s c = .ok s')
    {cs : List Expr} (hs : s.Valid) (hcs : ∀ c ∈ cs, c.IsTruth) (hsa : a.HoldsAll s.toList)
    (hca : a.HoldsAll cs) (hw : s.weight + (cs.map (·.weight)).sum < fuel) :
    ∃ s', cs.foldlM (addWithin fuel) s = .ok s' := by
  induction cs generalizing s with
  | nil => exact ⟨s, rfl⟩
  | cons c cs ihcs =>
    rw [List.forall_mem_cons] at hcs
    rw [Assignment.holdsAll_cons] at hca
    rw [List.map_cons, List.sum_cons] at hw
    obtain ⟨t, ht⟩ := ih hs hcs.1 hsa hca.1 (by omega)
    have hadded := added_of_addWithin hs hcs.1.1 ht
    have hle := hadded.weight_le
    rw [List.map_cons, List.sum_cons, List.map_nil, List.sum_nil] at hle
    obtain ⟨s', hs'⟩ := ihcs hadded.valid hcs.2
      ((hadded.holds_iff ha).2 ⟨hsa, by simpa using hca.1⟩) hca.2 (by omega)
    exact ⟨s', by rw [List.foldlM_cons, ht]; exact hs'⟩

theorem exists_addSimplified (ha : a.free)
    (ih : ∀ {s c}, s.Valid → c.IsTruth → a.HoldsAll s.toList → a.Holds c →
      s.weight + c.weight < fuel → ∃ s', addWithin fuel s c = .ok s')
    (hs : s.Valid) {c : Expr} (hc : c.IsTruth) (hsa : a.HoldsAll s.toList) (hca : a.Holds c)
    (hw : s.weight + c.weight ≤ fuel) : ∃ s', addSimplified fuel s c = .ok s' := by
  unfold addSimplified
  split
  · rename_i v w
    obtain ⟨n, hn, h0⟩ := hca
    obtain rfl : v = n := by simpa using hn
    exact ⟨s, by rw [demand_of h0]; rfl⟩
  · rename_i l r
    have hparts : ∀ c ∈ [l, r], c.IsTruth := by simpa using hc.and
    have hholds : a.HoldsAll [l, r] := by simpa using (Assignment.holds_and ha hc).1 hca
    rw [Expr.weight_binary] at hw
    refine exists_foldlM ha ih hs hparts hsa hholds ?_
    simp only [List.map_cons, List.sum_cons, List.map_nil, List.sum_nil]
    omega
  · rename_i v w target
    obtain ⟨t, changed, htake, ht⟩ := hs.exists_takeAffected hc
    obtain ⟨hta, hcha⟩ := (ht.holds_iff ha hca).2 hsa
    have hle := ht.weight_le
    rw [← weight_eq] at hle
    rw [Expr.weight_compare] at hw
    obtain ⟨t', ht'⟩ := exists_foldlM ha ih ht.valid ht.truths hta hcha (by omega)
    exact ⟨_, by rw [htake, Checked.ok_bind, ht']; rfl⟩
  · exact ⟨_, rfl⟩

theorem exists_addWithin (ha : a.free) {c : Expr} (hs : s.Valid) (hc : c.IsTruth)
    (hsa : a.HoldsAll s.toList) (hca : a.Holds c) (hw : s.weight + c.weight < fuel) :
    ∃ s', addWithin fuel s c = .ok s' := by
  induction fuel generalizing s c with
  | zero => omega
  | succ fuel ih =>
    obtain ⟨c', hc', href⟩ := hs.exists_simplify hc.1
    have hle := href.weight_le trivial
    rw [addWithin_succ, demand_of hc.2, Checked.ok_bind, hc', Checked.ok_bind]
    exact exists_addSimplified ha ih hs (hc.of_refinesOn href) hsa
      ((href.holds_iff ha hsa).1 hca) (by omega)

theorem exists_foldlM_add (ha : a.free) {cs : List Expr} (hs : s.Valid)
    (hcs : ∀ c ∈ cs, c.IsTruth) (hsa : a.HoldsAll s.toList) (hca : a.HoldsAll cs) :
    ∃ s', cs.foldlM add s = .ok s' := by
  induction cs generalizing s with
  | nil => exact ⟨s, rfl⟩
  | cons c cs ih =>
    rw [List.forall_mem_cons] at hcs
    rw [Assignment.holdsAll_cons] at hca
    obtain ⟨t, ht⟩ := exists_addWithin ha hs hcs.1 hsa hca.1 (Nat.lt_succ_self _)
    have hadded := added_of_addWithin hs hcs.1.1 ht
    obtain ⟨s', hs'⟩ := ih hadded.valid hcs.2
      ((hadded.holds_iff ha).2 ⟨hsa, by simpa using hca.1⟩) hca.2
    exact ⟨s', by rw [List.foldlM_cons, add, ht]; exact hs'⟩

/-- A set that constraints were added to holds exactly where they all do. Where it holds, what it
simplifies keeps its width and its value, and a truth value that can hold together with it can be
added to it. -/
theorem exact_of_foldlM_add {cs : List Expr} {s : ConstraintSet} (hcs : ∀ c ∈ cs, c.WellFormed)
    (h : cs.foldlM add {} = .ok s) :
    (∀ a : Assignment, a.free → a.satisfies? s.toList = a.satisfies? cs) ∧
    (∀ (a : Assignment) (e : Expr), a.free → e.WellFormed → a.satisfies? s.toList = some true →
      ∃ e', s.simplify e = .ok e' ∧ e'.width = e.width ∧ a.value? e' = a.value? e) ∧
    (∀ (a : Assignment) (c : Expr), a.free → c.WellFormed → c.width = 1 →
      a.satisfies? s.toList = some true → a.satisfies? [c] = some true →
      ∃ s', s.add c = .ok s') := by
  have hadded := added_foldlM (fun hs hc ↦ added_of_addWithin hs hc) valid_empty hcs h
  refine ⟨fun a ha ↦ ?_, fun a e ha he hsat ↦ ?_, fun a c ha hc hw hsat hcsat ↦ ?_⟩
  · apply Assignment.satisfies?_congr ha
    rw [hadded.holds_iff ha]
    exact and_iff_right Assignment.holdsAll_nil
  · rw [Assignment.satisfies?_eq_true] at hsat
    obtain ⟨e', he', href⟩ := hadded.valid.exists_simplify he
    obtain ⟨v, hv⟩ := Assignment.exists_eval ha e
    refine ⟨e', he', href.width_eq, ?_⟩
    rw [Assignment.value?_eq_eval, Assignment.value?_eq_eval, hv, href.eval_eq hsat hv]
  · rw [Assignment.satisfies?_eq_true] at hsat hcsat
    exact exists_addWithin ha hadded.valid ⟨hc, hw⟩ hsat (hcsat c (by simp)) (Nat.lt_succ_self _)

/-- A byte below 100 that is then said to be zero. -/
theorem exact_of_foldlM_add_zero_byte :
    ∃ s, [Expr.compare .ult (.read (.base (.symbolic "x" 1)) (.const 0 32)) (.const 100 8),
        .compare .eq (.const 0 8) (.read (.base (.symbolic "x" 1)) (.const 0 32))].foldlM add {} =
          .ok s ∧
      ∃ e, s.simplify (.read (.base (.symbolic "x" 1)) (.const 0 32)) = .ok e ∧ e.width = 8 ∧
        (Assignment.mk true {}).value? e = some 0 := by
  have hcs : ∀ c ∈ [Expr.compare .ult (.read (.base (.symbolic "x" 1)) (.const 0 32)) (.const 100 8),
      .compare .eq (.const 0 8) (.read (.base (.symbolic "x" 1)) (.const 0 32))], c.IsTruth := by
    simp [Expr.IsTruth]
  have hsat : (Assignment.mk true {}).satisfies?
      [.compare .ult (.read (.base (.symbolic "x" 1)) (.const 0 32)) (.const 100 8),
        .compare .eq (.const 0 8) (.read (.base (.symbolic "x" 1)) (.const 0 32))] = some true := rfl
  obtain ⟨s, hs⟩ := exists_foldlM_add (a := ⟨true, {}⟩) rfl valid_empty hcs
    Assignment.holdsAll_nil (Assignment.satisfies?_eq_true.1 hsat)
  obtain ⟨hiff, hsimplify, -⟩ := exact_of_foldlM_add (fun c hc ↦ (hcs c hc).1) hs
  exact ⟨s, hs, hsimplify _ _ rfl (by simp) ((hiff _ rfl).trans hsat)⟩

end ConstraintSet

end Symex
