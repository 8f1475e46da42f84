import Symex.Proofs.Feasibility.Instructions
import Symex.Proofs.Lineage.Objects

namespace Symex

open Checked

variable {σ α β : Type} {I : Trust} {twins needs quiet : Prop}

/-! ## Merging -/

theorem Expr.ends_foldlM_mkAnd {es : List Expr} {acc : Expr} (hes : ∀ e ∈ es, e.IsTruth) (hacc : acc.IsTruth) :
    Checked.Ends (fun _ ↦ True) (es.foldlM mkAnd acc) fun e ↦ e.IsTruth ∧
      ∀ a : Assignment, a.free → a.val e ≠ 0 → a.val acc ≠ 0 ∧ ∀ c ∈ es, a.val c ≠ 0 := by
  induction es generalizing acc with
  | nil => exact ends_pure ⟨hacc, fun a _ h ↦ ⟨h, nofun⟩⟩
  | cons c es ih =>
    rw [List.forall_mem_cons] at hes
    rw [List.foldlM_cons]
    refine ends_bind (ends_true_iff.2 fun _ h ↦ (safe_mkAnd hacc hes.1).of_eq h) fun both hboth ↦ ?_
    refine (ih hes.2 hboth.1).mono fun e he ↦ ⟨he.1, fun a ha hval ↦ ?_⟩
    obtain ⟨hval, hrest⟩ := he.2 a ha hval
    obtain ⟨hacc, hc⟩ := (hboth.2 a ha).1 hval
    exact ⟨hacc, List.forall_mem_cons.2 ⟨hc, hrest⟩⟩

theorem ConstraintSet.Valid.ends_foldlM_add {es : List Expr} {c : ConstraintSet} (hc : c.Valid)
    (hes : ∀ e ∈ es, e.IsTruth) : Checked.Ends (fun _ ↦ True) (es.foldlM (·.add) c) fun c' ↦ c'.Valid ∧
      ∀ a, I.Solves a c' → ∀ e ∈ es, a.val e ≠ 0 := by
  suffices h : Checked.Ends (fun _ ↦ True) (es.foldlM (·.add) c) fun c' ↦ c'.Valid ∧
      ∀ a, I.Solves a c' → I.Solves a c ∧ ∀ e ∈ es, a.val e ≠ 0 from
    h.mono fun _ h ↦ ⟨h.1, fun a ha ↦ (h.2 a ha).2⟩
  induction es generalizing c with
  | nil => exact ends_pure ⟨hc, fun a ha ↦ ⟨ha, nofun⟩⟩
  | cons e es ih =>
    rw [List.forall_mem_cons] at hes
    rw [List.foldlM_cons]
    refine ends_bind (ends_true_iff.2 fun _ h ↦ hc.of_add (I := I) hes.1.1 h) fun c' hc' ↦ ?_
    refine (ih hc'.1 hes.2).mono fun c'' h ↦ ⟨h.1, fun a ha ↦ ?_⟩
    obtain ⟨ha, hrest⟩ := h.2 a ha
    obtain ⟨ha, he⟩ := hc'.2 a ha
    exact ⟨ha, List.forall_mem_cons.2 ⟨he, hrest⟩⟩

theorem State.ends_merge {s t : State} (hs : s.constraints.Valid) (ht : t.constraints.Valid) :
    Checked.Ends (fun _ ↦ True) (s.merge t) fun r ↦ ∀ u, r = some u → u.id = s.id ∧ u.path = s.path ∧
      ∀ a, I.Solves a u.constraints → I.Solves a s.constraints ∨ I.Solves a t.constraints := by
  unfold merge
  split
  · dsimp only
    refine ends_bind (Expr.ends_foldlM_mkAnd (fun c hc ↦ hs.truths c (List.mem_filter.1 hc).1)
      ⟨Expr.bool_wellFormed true, rfl⟩) fun inFirst hfirst ↦ ?_
    refine ends_bind (Expr.ends_foldlM_mkAnd (fun c hc ↦ ht.truths c (List.mem_filter.1 hc).1)
      ⟨Expr.bool_wellFormed true, rfl⟩) fun inSecond hsecond ↦ ?_
    refine ends_bind (ConstraintSet.valid_empty.ends_foldlM_add (I := I) fun c hc ↦
      hs.truths c (List.mem_filter.1 hc).1) fun common hcommon ↦ ?_
    refine ends_bind (ends_true_iff.2 fun _ h ↦ (Expr.safe_mkOr hfirst.1 hsecond.1).of_eq h)
      fun either heither ↦ ?_
    refine ends_bind (ends_true_iff.2 fun _ h ↦ hcommon.1.of_add (I := I) heither.1.1 h) fun c hc ↦ ?_
    refine ends_bind (ends_any _) fun threads _ ↦ ends_bind (ends_any _) fun memory _ ↦ ends_pure ?_
    rintro u ⟨⟩
    refine ⟨rfl, rfl, fun a ha ↦ ?_⟩
    obtain ⟨ha, hval⟩ := hc.2 a ha
    have hfree := ha.free
    -- what both have holds, and so does all that one of them has alone
    have hshared : ∀ e ∈ s.constraints.toList, e ∈ t.constraints.toList → a.val e ≠ 0 := fun e he he' ↦
      hcommon.2 a ha e (List.mem_filter.2 ⟨he, by simpa using he'⟩)
    refine ((heither.2 a hfree).1 hval).imp (fun hval ↦ ?_) fun hval ↦ ?_
    · refine ⟨ha.possible, fun e he ↦ (Assignment.holds_iff_val hfree).2 ?_⟩
      by_cases he' : e ∈ t.constraints.toList
      · exact hshared e he he'
      · exact (hfirst.2 a hfree hval).2 e (List.mem_filter.2 ⟨he, by simpa using he'⟩)
    · refine ⟨ha.possible, fun e he ↦ (Assignment.holds_iff_val hfree).2 ?_⟩
      by_cases he' : e ∈ s.constraints.toList
      · exact hshared e he' he
      · exact (hsecond.2 a hfree hval).2 e (List.mem_filter.2 ⟨he, by simpa using he'⟩)
  · exact ends_pure nofun

namespace Exec

/-- The seeds of some state went to the state `id`. -/
structure Joined (e : Executor σ) (id : StateId) (seeds : Std.TreeMap StateId (List Seed)) : Prop where
  isEmpty : e.seeds.isEmpty → seeds.isEmpty
  keys : ∀ k, seeds[k]? ≠ none → e.seeds[k]? ≠ none ∨ k = id
  fit : id < e.nextStateId → e.SeedsFit → Executor.SeedsFit { e with seeds }

theorem joined (e : Executor σ) (id id' : StateId) : Joined e id
    (match e.seeds[id']? with
      | none => e.seeds
      | some more => (e.seeds.erase id').insert id (e.seeds.getD id [] ++ more)) := by
  split
  · exact ⟨fun h ↦ h, fun _ ↦ .inl, fun _ h ↦ h⟩
  · rename_i more hmore
    refine ⟨fun hempty ↦ ?_, fun k hk ↦ ?_, fun hlt hfit ↦ (hfit.erase id').insert hlt fun seed hseed ↦ ?_⟩
    · cases (Std.TreeMap.getElem?_of_isEmpty hempty).symm.trans hmore
    · rw [Focus.getElem?_insert_state] at hk
      split at hk
      · exact .inr (Eq.symm ‹_›)
      · rw [Focus.getElem?_erase_state] at hk
        split at hk
        · exact absurd rfl hk
        · exact .inl hk
    · obtain hseed | hseed := List.mem_append.1 hseed
      · rw [Std.TreeMap.getD_eq_getD_getElem?] at hseed
        cases hid : e.seeds[id]? with
        | none => simp [hid] at hseed
        | some seeds =>
          rw [hid] at hseed
          exact (hfit id seeds hid).2 seed hseed
      · exact (hfit id' more hmore).2 seed hseed

/-- The focus after its state ended and another one took its place. -/
def absorbed (focus : Focus σ) (id : StateId) (merged : State) (tree : ProcessTree)
    (seeds : Std.TreeMap StateId (List Seed)) : Focus σ :=
  { focus with executor := { focus.executor with
      tree, seeds, states := focus.executor.states.insert id merged
      removed := focus.executor.removed ++ [focus.state.id] } }

theorem writes_absorbed {focus : Focus σ} {id : StateId} {other : State}
    {seeds : Std.TreeMap StateId (List Seed)} (hgoing : focus.Going)
    (hother : focus.executor.states[id]? = some other) (hlt : id < focus.executor.nextStateId) (merged : State)
    (hid : merged.id = other.id) (hseeds : Joined focus.executor id seeds) (tree : ProcessTree) :
    focus.Writes [] [] [focus.state.id] [] (absorbed focus id merged tree seeds) where
  id_eq := rfl
  held k := by
    simp only [absorbed, Focus.Has, Focus.getElem?_insert_state, List.not_mem_nil, or_false]
    by_cases heq : id = k
    · simp [← heq, hother]
    · simp [heq]
  named_eq := rfl
  next_eq := rfl
  added_eq := by simp [absorbed]
  removed_eq := rfl
  gone_nodup := by simp
  gone := List.forall_mem_singleton.2 ⟨hgoing, .inl rfl⟩
  cases_eq := by simp [absorbed]
  reported_sub _ h := h
  reported _ := .inl
  searcher_eq := rfl
  config_eq := rfl
  seeds k hk := (hseeds.keys k hk).imp_right fun heq ↦ .inl (.inr (by simp [absorbed, heq]))
  fit := hseeds.fit hlt
  names hnames k s hs := by
    dsimp only [absorbed] at hs
    rw [Focus.getElem?_insert_state] at hs
    split at hs
    · exact Option.some.inj hs ▸ hid.trans ((hnames id other hother).trans ‹id = k›)
    · exact hnames k s hs

theorem ends_mergeWith_makes {focus : Focus σ} (hf : focus.Sound I) (ht : focus.Tidy) (hgoing : focus.Going)
    (hconfig : focus.executor.config.mergeAtJoinPoints = true) (ids : List StateId)
    (hids : ∀ id ∈ ids, id ∉ focus.executor.removed) :
    (mergeWith ids).Ends (fun _ ↦ True) focus fun _ f ↦ focus.Makes I twins False f := by
  induction ids with
  | nil => exact ends_pure (.refl _)
  | cons id rest ih =>
    rw [List.forall_mem_cons] at hids
    refine ends_bind_ok rfl ?_
    dsimp only
    split
    · exact ih hids.2
    · rename_i other hother
      have hvalid := (hf.executor.states id other hother).valid
      refine ends_bind (P := fun r f ↦ focus = f ∧ ∀ u, r = .ok (some u) →
        (other.merge focus.state = .ok (some u)) ∧ u.id = other.id ∧ u.path = other.path ∧
          ∀ a, I.Solves a u.constraints → I.Solves a other.constraints ∨ I.Solves a focus.state.constraints)
        (ends_lift (ends_true_iff.2 fun r hr ↦ ⟨rfl, fun u hu ↦ ?_⟩)) ?_ (by rintro _ _ ⟨rfl, -⟩; exact .refl _)
      · obtain rfl : r = some u := by simpa using hu
        exact ⟨hr, (State.ends_merge (I := I) hvalid hf.state.valid).of_eq hr u rfl⟩
      rintro o _ ⟨rfl, ho⟩
      cases o with
      | none => exact ih hids.2
      | some merged =>
        obtain ⟨hmerge, hid, hpath, hsolves⟩ := ho merged rfl
        have hend : ∀ (node : Option NodeId) (tree : ProcessTree) {seeds : Std.TreeMap StateId (List Seed)},
            Joined focus.executor id seeds → (do
              set { focus with executor := { focus.executor with
                tree, seeds, states := focus.executor.states.insert id { merged with node } } }
              terminate : Exec σ Unit).Ends (fun _ ↦ True) focus fun _ f ↦ focus.Makes I twins False f := by
          intro node tree seeds hseeds
          have hmoves : focus.Merge I (absorbed focus id { merged with node } tree seeds) id other
              { merged with node } :=
            ⟨hgoing, hother, hids.1, hid, hpath, hsolves, rfl, rfl, rfl, rfl, rfl, rfl, rfl, hseeds.isEmpty⟩
          have hmerged : (absorbed focus id { merged with node } tree seeds).executor.states[id]? =
              some { merged with node } :=
            (Focus.getElem?_insert_state ..).trans (if_pos rfl)
          have hne : id ≠ focus.state.id := by
            rintro rfl
            cases hother.symm.trans ht.own_none
          have hwrites : focus.Writes [] [] [focus.state.id] [] (absorbed focus id { merged with node } tree seeds) :=
            writes_absorbed hgoing hother (ht.named id other hother).2 { merged with node } hid hseeds tree
          exact ends_bind_ok rfl (ends_terminate hgoing ⟨.merge hmoves, fun _ ↦
            ⟨_, .absorbs hconfig hne hother hids.1 hmerge hmerged hwrites⟩⟩)
        have hseeds := joined focus.executor id focus.state.id
        dsimp only
        split
        · refine ends_bind (P := fun _ f ↦ focus = f) (ends_lift ((ends_any _).mono fun _ _ ↦ rfl)) ?_
            (by rintro _ _ rfl; exact .refl _)
          rintro ⟨node, tree⟩ _ rfl
          exact ends_bind_ok rfl (hend (some node) tree hseeds)
        · exact ends_bind_ok rfl (hend merged.node _ hseeds)

theorem ends_companions {focus : Focus σ} : (companions : Exec σ _).Ends (fun _ ↦ True) focus fun r f ↦
    focus = f ∧ ∀ ids, r = .ok ids → ∀ id ∈ ids, id ∉ focus.executor.removed := by
  refine ends_bind_ok rfl (ends_bind_ok rfl (ends_bind (P := fun _ f ↦ focus = f)
    (ends_lift ((ends_any _).mono fun _ _ ↦ rfl)) ?_ fun _ _ h ↦ ⟨h, nofun⟩))
  rintro t _ rfl
  refine ends_pure ⟨rfl, ?_⟩
  rintro _ ⟨⟩ id hid
  simp only [List.mem_map, List.mem_filter, decide_eq_true_eq] at hid
  obtain ⟨p, ⟨-, -, hlive, -⟩, rfl⟩ := hid
  simpa using hlive

theorem goes_jump (block : BlockId) : (jump block : Exec σ Unit).Goes I twins True False := by
  refine goes_bind (keeps_updateState fun s hs ↦ hs.safe_modifyThread fun t ht ↦ Checked.ends_pure ht)
    (stays_updateState fun s ↦ s.alike_modifyThread _).goes fun _ _ focus hf ht _ hgoing ↦ ?_
  have hlift : ∀ {γ δ : Type} (c : Checked γ) {k : γ → Exec σ δ} {Q : Except PathError δ → Focus σ → Prop},
      (∀ a, (k a).Ends (fun _ ↦ True) focus Q) → (liftM c >>= k).Ends (fun _ ↦ True) focus Q := by
    intro γ δ c k Q hk
    refine ends_bind (P := fun r f ↦ (∃ a, r = .ok a) ∧ focus = f)
      (ends_lift (ends_true_iff.2 fun a _ ↦ ⟨⟨a, rfl⟩, rfl⟩)) ?_ fun _ _ h ↦ (nomatch h.1)
    rintro a _ ⟨-, rfl⟩
    exact hk a
  refine ends_bind_ok rfl ?_
  split
  · rename_i hconfig
    refine ends_bind_ok rfl (hlift _ fun t ↦ hlift _ fun callee ↦ ?_)
    split
    · exact ends_pure ⟨.refl _, nofun⟩
    · refine ends_bind ends_companions ?_ (by rintro _ _ ⟨rfl, -⟩; exact ⟨.refl _, nofun⟩)
      rintro ids _ ⟨rfl, hids⟩
      exact (ends_mergeWith_makes hf ht (hgoing trivial) hconfig ids (hids ids rfl)).mono fun _ _ h ↦
        ⟨h.mono False.elim, nofun⟩
  · exact ends_pure ⟨.refl _, nofun⟩

end Exec

/-! ## Switches -/

theorem Expr.safe_constant_val (v w : Nat) : Safe (constant v w) fun e ↦ e.WellFormed ∧
    ∀ a : Assignment, a.val e = Bits.trunc w v :=
  ends_bind (safe_demand (by decide)) fun _ hw ↦ ends_pure ⟨word_wellFormed v hw.1 hw.2, fun a ↦ by
    rw [Assignment.val_eq (Assignment.eval_word ..), Bits.trunc_eq]⟩

/-- Cases for one number, read as one of `width` bits, have one target. -/
def Apart (width : Nat) (cases : List (Nat × BlockId)) : Prop :=
  ∀ p ∈ cases, ∀ q ∈ cases, Bits.trunc width p.1 = Bits.trunc width q.1 → p.2 = q.2

instance (width : Nat) (cases : List (Nat × BlockId)) : Decidable (Apart width cases) :=
  inferInstanceAs (Decidable (∀ p ∈ cases, ∀ q ∈ cases, _ → _))

/-- A block where a switch on the number `n` can go. -/
def Leads (width : Nat) (cases : List (Nat × BlockId)) (otherwise : BlockId) (n : Nat) (block : BlockId) :
    Prop :=
  (∃ p ∈ cases, Bits.trunc width p.1 = n ∧ p.2 = block) ∨
    (∀ p ∈ cases, Bits.trunc width p.1 ≠ n) ∧ block = otherwise

theorem Leads.unique {width n : Nat} {cases : List (Nat × BlockId)} {otherwise b b' : BlockId}
    (h : Leads width cases otherwise n b) (h' : Leads width cases otherwise n b')
    (hapart : Apart width cases) : b = b' := by
  obtain ⟨p, hp, hn, rfl⟩ | ⟨hnone, rfl⟩ := h
  · obtain ⟨q, hq, hn', rfl⟩ | ⟨hnone, -⟩ := h'
    · exact hapart p hp q hq (hn.trans hn'.symm)
    · exact absurd hn (hnone p hp)
  · obtain ⟨q, hq, hn', -⟩ | ⟨-, rfl⟩ := h'
    · exact absurd hn' (hnone q hq)
    · rfl

/-- The conditions of different targets, each of which says that its target is one of `P`. -/
structure Targets (P : BlockId → Assignment → Prop) (targets : List (BlockId × Expr)) : Prop where
  truth : ∀ t ∈ targets, t.2.IsTruth
  leads : ∀ t ∈ targets, ∀ a : Assignment, a.free → a.val t.2 ≠ 0 → P t.1 a
  distinct : (targets.map (·.1)).Nodup

section

variable {P : BlockId → Assignment → Prop} {targets : List (BlockId × Expr)} {block : BlockId}
  {condition : Expr}

theorem safe_joinTarget (htruths : ∀ t ∈ targets, t.2.IsTruth)
    (hleads : ∀ t ∈ targets, ∀ a : Assignment, a.free → a.val t.2 ≠ 0 → P t.1 a) (htruth : condition.IsTruth)
    (hnew : ∀ a : Assignment, a.free → a.val condition ≠ 0 → P block a) :
    Safe (targets.mapM fun (b, c) ↦ do
      if b = block then return (b, ← Expr.mkOr c condition) else return (b, c)) fun r ↦
      (∀ t ∈ r, t.2.IsTruth ∧ ∀ a : Assignment, a.free → a.val t.2 ≠ 0 → P t.1 a) ∧
        r.map (·.1) = targets.map (·.1) := by
  induction targets with
  | nil => exact ends_pure ⟨nofun, rfl⟩
  | cons t rest ih =>
    rw [List.forall_mem_cons] at htruths hleads
    rw [List.mapM_cons]
    refine ends_bind (P := fun t' ↦ (t'.2.IsTruth ∧ ∀ a : Assignment, a.free → a.val t'.2 ≠ 0 → P t'.1 a) ∧
      t'.1 = t.1) ?_ fun t' ht' ↦ ends_bind (ih htruths.2 hleads.2) fun rest' hrest' ↦
        ends_pure ⟨List.forall_mem_cons.2 ⟨ht'.1, hrest'.1⟩, by simp [ht'.2, hrest'.2]⟩
    dsimp only
    split
    · rename_i heq
      refine ends_bind (Expr.safe_mkOr htruths.1 htruth) fun e he ↦ ends_pure ⟨⟨he.1, fun a ha hval ↦ ?_⟩, rfl⟩
      exact ((he.2 a ha).1 hval).elim (hleads.1 a ha) (heq ▸ hnew a ha)
    · exact ends_pure ⟨⟨htruths.1, hleads.1⟩, rfl⟩

theorem Targets.apart (h : Targets P targets) (hunique : ∀ a b b', P b a → P b' a → b = b') :
    (targets.map (·.2)).Pairwise fun e e' ↦ ∀ a : Assignment, a.free → a.val e ≠ 0 → a.val e' = 0 := by
  rw [List.pairwise_map]
  refine (List.pairwise_map.1 h.distinct).imp_of_mem fun {t t'} ht ht' hne a ha hval ↦ ?_
  by_contra hval'
  exact hne (hunique a t.1 t'.1 (h.leads t ht a ha hval) (h.leads t' ht' a ha hval'))

theorem Targets.safe_add (h : Targets P targets) (htruth : condition.IsTruth)
    (hnew : ∀ a : Assignment, a.free → a.val condition ≠ 0 → P block a) :
    Safe (Exec.addTarget targets block condition) (Targets P) := by
  unfold Exec.addTarget
  split
  · exact (safe_joinTarget h.truth h.leads htruth hnew).mono fun r hr ↦
      ⟨fun t ht ↦ (hr.1 t ht).1, fun t ht ↦ (hr.1 t ht).2, hr.2 ▸ h.distinct⟩
  · rename_i hany
    refine ends_pure ⟨fun t ht ↦ ?_, fun t ht ↦ ?_, ?_⟩
    · obtain ht | ht := List.mem_append.1 ht
      · exact h.truth t ht
      · exact List.mem_singleton.1 ht ▸ htruth
    · obtain ht | ht := List.mem_append.1 ht
      · exact h.leads t ht
      · exact List.mem_singleton.1 ht ▸ hnew
    · rw [List.map_append, List.nodup_append]
      refine ⟨h.distinct, by simp, ?_⟩
      rintro _ hmem b hb rfl
      obtain ⟨t, ht, rfl⟩ := List.mem_map.1 hmem
      obtain rfl : t.1 = block := by simpa using hb
      exact hany (List.any_eq_true.2 ⟨t, ht, by simp⟩)

end

namespace Exec

variable {value : Expr}

theorem keeps_switchTargets_leads (hvalue : value.WellFormed) (otherwise : BlockId)
    (cases : List (Nat × BlockId)) : (switchTargets value otherwise cases : Exec σ _).Keeps I
      (Targets fun block a ↦ Leads value.width cases otherwise (a.val value) block) := by
  intro focus hf
  refine keepsAt_bind (keepsAt_forIn (J := fun rest p _ ↦ (∀ c ∈ rest, c ∈ cases) ∧
    Targets (fun block a ↦ Leads value.width cases otherwise (a.val value) block) p.1 ∧ p.2.IsTruth ∧
      ∀ a : Assignment, a.free → a.val p.2 ≠ 0 →
        ∀ c ∈ cases, c ∈ rest ∨ Bits.trunc value.width c.1 ≠ a.val value) hf ?_ ?_) ?_
  · exact ⟨fun c hc ↦ by simpa using hc, ⟨nofun, nofun, .nil⟩, ⟨Expr.bool_wellFormed true, rfl⟩,
      fun a _ _ c hc ↦ .inl (by simpa using hc)⟩
  · rintro ⟨case, block⟩ rest ⟨targets, none_⟩ f hf ⟨hmem, htargets, htruth, hnone⟩
    rw [List.forall_mem_cons] at hmem
    refine keepsAt_bind (keepsAt_lift (Expr.safe_constant_val case value.width) hf) ?_
    rintro number _ hf ⟨rfl, hnumber, hval⟩
    refine keepsAt_bind (keepsAt_lift (Expr.safe_mkEq hvalue hnumber) hf) ?_
    rintro same _ hf ⟨rfl, hsame, hiff⟩
    refine keepsAt_bind (keepsAt_lift (Expr.safe_mkAnd htruth hsame.isZero) hf) ?_
    rintro none' _ hf ⟨rfl, hnone', hboth⟩
    have hrest : ∀ a : Assignment, a.free → a.val none' ≠ 0 →
        ∀ c ∈ cases, c ∈ rest ∨ Bits.trunc value.width c.1 ≠ a.val value := by
      intro a ha hval' c hc
      obtain ⟨hold, hnew⟩ := (hboth a ha).1 hval'
      obtain hc | hc := hnone a ha hold c hc
      · obtain rfl | hc := List.mem_cons.1 hc
        · refine .inr fun heq ↦ ?_
          have hholds : a.val same ≠ 0 := (hiff a ha).2 (((hval a).trans heq).symm)
          simp [Expr.val_isZero ha hsame.1, hholds] at hnew
        · exact .inl hc
      · exact .inr hc
    refine keepsAt_bind ((keeps_mayBeTrue hsame).here hf) fun possible f hf _ ↦ ?_
    split
    · refine keepsAt_bind (keepsAt_lift (htargets.safe_add hsame fun a ha hholds ↦ ?_) hf) ?_
      · exact .inl ⟨(case, block), hmem.1, ((hiff a ha).1 hholds ▸ hval a).symm, rfl⟩
      · rintro targets' _ hf ⟨rfl, htargets'⟩
        exact keepsAt_pure hf ⟨_, rfl, hmem.2, htargets', hnone', hrest⟩
    · exact keepsAt_pure hf ⟨_, rfl, hmem.2, htargets, hnone', hrest⟩
  · rintro ⟨targets, none_⟩ f hf ⟨-, htargets, htruth, hnone⟩
    refine keepsAt_bind ((keeps_mayBeTrue htruth).here hf) fun possible f hf _ ↦ ?_
    dsimp only
    split
    · refine keepsAt_bind (keepsAt_lift (htargets.safe_add htruth fun a ha hholds ↦ ?_) hf) ?_
      · exact .inr ⟨fun c hc ↦ (hnone a ha hholds c hc).resolve_left nofun, rfl⟩
      · rintro targets' _ hf ⟨rfl, htargets'⟩
        exact keepsAt_pure hf htargets'
    · exact keepsAt_pure hf htargets

theorem stays_forIn {γ : Type} {body : γ → β → Exec σ (ForInStep β)} {l : List γ} {b : β}
    (h : ∀ x b, (body x b).Stays I quiet) : (forIn l b body : Exec σ β).Stays I quiet := by
  induction l generalizing b with
  | nil => exact stays_pure _
  | cons x l ih =>
    rw [List.forIn_cons]
    refine stays_bind (h x b) fun r ↦ ?_
    cases r with
    | done b' => exact stays_pure _
    | yield b' => exact ih

theorem stays_switchTargets (value : Expr) (otherwise : BlockId) (cases : List (Nat × BlockId)) :
    (switchTargets value otherwise cases : Exec σ _).Stays I quiet := by
  refine stays_bind (stays_forIn fun c p ↦ ?_) fun p ↦ stays_bind (stays_query _) fun b ↦ ?_
  · refine stays_bind (stays_lift _) fun _ ↦ stays_bind (stays_lift _) fun _ ↦
      stays_bind (stays_lift _) fun _ ↦ stays_bind (stays_query _) fun b ↦ ?_
    split
    · exact stays_bind (stays_lift _) fun _ ↦ stays_pure _
    · exact stays_pure _
  · dsimp only
    split
    · exact stays_bind (stays_lift _) fun _ ↦ stays_pure _
    · exact stays_pure _

theorem goes_jumps (arms : List (Option Branch × BlockId × Expr)) :
    (forIn arms PUnit.unit fun (arm, block, _) _ ↦ do
      onSide arm (jump block)
      pure (ForInStep.yield PUnit.unit) : Exec σ PUnit).Goes I twins False False := by
  refine goes_forIn ?_ ?_
  · rintro ⟨arm, block, _⟩ -
    exact keeps_bind (keeps_onSide arm (keeps_jump block)) fun _ _ ↦ keeps_pure rfl
  · rintro ⟨arm, block, _⟩ -
    exact goes_bind_pure (goes_onSide arm (keeps_jump block) (goes_jump block))

theorem goes_switch (hvalue : value.WellFormed) (otherwise : BlockId) (cases : List (Nat × BlockId))
    (hapart : ¬twins → Apart value.width cases) :
    (switch value otherwise cases : Exec σ Unit).Goes I twins True False := by
  refine goes_bind (keeps_toUnique hvalue) (stays_toUnique _).goes fun value' hvalue' ↦ ?_
  split
  · exact goes_jump _
  · intro focus hf ht hs hgoing
    rw [← hvalue'.2] at hapart
    have htargets : (switchTargets value' otherwise cases : Exec σ _).Stays I True :=
      stays_switchTargets _ _ _
    refine ends_bind (((htargets focus).and (keepsAt_switchTargets hf hvalue'.1 otherwise cases)).and
      (keeps_switchTargets_leads hvalue'.1 otherwise cases focus hf)) (fun targets f h ↦ ?_)
      fun _ _ h ↦ ⟨h.1.1.1.makes, by simp⟩
    obtain ⟨⟨⟨hsolo, hremoved⟩, hf', hreachable⟩, -, hleads⟩ := h
    have hleads := hleads targets rfl
    have hsucc := hsolo.toOwn.succeeds ht
    have htruth : ∀ e ∈ targets.map (·.2), e.IsTruth := by
      intro e he
      obtain ⟨t, ht, rfl⟩ := List.mem_map.1 he
      exact hleads.truth t ht
    have hpairs : ¬twins → (targets.map (·.2)).Pairwise fun e e' ↦
        ∀ a, I.Solves a f.state.constraints → a.val e ≠ 0 → a.val e' = 0 := fun htwins ↦
      (hleads.apart fun a b b' h h' ↦ h.unique h' (hapart htwins)).imp fun h a ha ↦ h a ha.free
    have hbranch := (ends_branch_makes hsucc.tidy (own_going hsolo.toOwn (hremoved trivial) (hgoing trivial))
      hf'.state.valid htruth hpairs).and (keepsAt_branch hf' fun e he ↦ by
        obtain ⟨t, ht, rfl⟩ := List.mem_map.1 he
        exact hreachable targets rfl t ht)
    refine ends_bind hbranch (fun arms g h ↦ ?_) fun _ _ h ↦ ⟨hsolo.makes.trans (h.1.mono False.elim), by simp⟩
    have hsucc' := h.1.moves.succeeds hsucc.tidy
    have hschedule : g.executor.config.forkOnSchedule = true → twins := by
      rw [hsucc'.config_eq, hsucc.config_eq]
      exact hs
    exact (goes_bind_pure (goes_jumps (arms.zip targets)) g h.2.1 hsucc'.tidy hschedule False.elim).mono
      fun _ _ h' ↦ ⟨hsolo.makes.trans ((h.1.mono False.elim).trans h'.1), by simp⟩

end Exec

end Symex
