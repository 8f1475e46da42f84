import Symex.Proofs.Accesses

namespace Symex

variable {σ α β : Type} {I : Inputs} {F : Fault → Prop} {A B : Assignment → Prop} {Q : State → Prop}

namespace State

def Confined (I : Inputs) (A : Assignment → Prop) (s : State) : Prop := ∀ a, I.Solves a s.constraints → A a

/-- The state can go on, and can be forked. -/
structure Able (I : Inputs) (s : State) : Prop where
  valid : s.constraints.Valid
  satisfiable : I.Satisfiable s.constraints
  enabled : s.forkDisabled = false

end State

namespace Focus

variable {f f' g : Focus σ} {b b' : Branch} {s s' : State} {P R : Branch → State → Prop}

/-- Nothing keeps the machine from work on the state in focus. -/
structure Workable (I : Inputs) (g : Focus σ) : Prop where
  unrestrained : g.executor.Unrestrained I
  able : g.state.Able I
  live : g.state.id ∉ g.executor.removed
  id_lt : g.state.id < g.executor.nextStateId
  removed_lt : ∀ id ∈ g.executor.removed, id < g.executor.nextStateId
  leaf : ∀ n, g.state.node = some n → g.executor.tree.isLeaf n = true
  /-- The functions on the stack are functions of the program. -/
  trace : ∃ t, g.state.stackTrace g.executor.program = .ok t

theorem Workable.ready (h : g.Workable I) : g.Ready I .current g.state :=
  ⟨rfl, trivial, h.live, h.able.valid, h.able.satisfiable, h.leaf, h.able.enabled⟩

/-- From `g` to `f` the state in focus became those at the places that were given out meanwhile, each of which has
ended or is as `P` says. Nothing else changed. -/
structure Becomes (I : Inputs) (P : Branch → State → Prop) (g f : Focus σ) : Prop where
  continues : g.executor.Continues f.executor
  id_eq : f.state.id = g.state.id
  states_eq : ∀ id < g.executor.nextStateId, f.executor.states[id]? = g.executor.states[id]?
  removed : ∀ id ∈ f.executor.removed, id ∈ g.executor.removed ∨ id = g.state.id ∨
    g.executor.nextStateId ≤ id ∧ id < f.executor.nextStateId
  /-- The leaves of other states are left alone. -/
  kept : ∀ n, g.executor.tree.isLeaf n = true → g.state.node ≠ some n → f.executor.tree.isLeaf n = true
  size_le : g.executor.tree.nodes.size ≤ f.executor.tree.nodes.size
  named : ∀ b s, g.Result f b → f.stateAt? b = some s → s.id = b.idFrom g.state.id
  leaf : ∀ b s n, g.Result f b → f.stateAt? b = some s → s.node = some n →
    f.executor.tree.isLeaf n = true ∧ (g.state.node = some n ∨ g.executor.tree.nodes.size ≤ n)
  apart : ∀ b s b' s' n, g.Result f b → f.stateAt? b = some s → g.Result f b' → f.stateAt? b' = some s' →
    s.node = some n → s'.node = some n → b = b'
  parts : ∀ b s, g.Result f b → f.stateAt? b = some s → s.id ∉ f.executor.removed → s.Able I ∧ P b s

theorem Becomes.imp (h : g.Becomes I P f) (himp : ∀ b s, g.Result f b → f.stateAt? b = some s →
    s.id ∉ f.executor.removed → s.Able I → P b s → R b s) : g.Becomes I R f :=
  ⟨h.continues, h.id_eq, h.states_eq, h.removed, h.kept, h.size_le, h.named, h.leaf, h.apart,
    fun b s hb hs hlive ↦
      have ⟨hable, hP⟩ := h.parts b s hb hs hlive
      ⟨hable, himp b s hb hs hlive hable hP⟩⟩

theorem Becomes.asked {solver : Solver σ} (h : (g.withSolver solver).Becomes I P f)
    (hsame : g.executor.solver.Same solver) : g.Becomes I P f :=
  ⟨.trans (.withSolver hsame) h.continues, h.id_eq, h.states_eq, h.removed, h.kept, h.size_le, h.named, h.leaf,
    h.apart, h.parts⟩

theorem result_of_next_eq (heq : f.executor.nextStateId = g.executor.nextStateId) (h : g.Result f b) :
    b = .current := by
  cases b with
  | current => rfl
  | forked id => exact absurd (heq ▸ h.2) (Nat.not_lt_of_le h.1)

theorem Advanced.becomes (h : g.Advanced f) (hu : g.Unforked f) (hid : f.state.id = g.state.id)
    (hnode : f.state.node = g.state.node)
    (hleaf : ∀ n, g.state.node = some n → g.executor.tree.isLeaf n = true)
    (hstate : f.state.id ∉ f.executor.removed → f.state.Able I ∧ P .current f.state) : g.Becomes I P f := by
  have hplace : ∀ {b s}, g.Result f b → f.stateAt? b = some s → b = .current ∧ f.state = s := by
    intro b s hb hs
    obtain rfl := result_of_next_eq hu.nextStateId_eq hb
    exact ⟨rfl, Option.some.inj hs⟩
  refine ⟨h.continues, hid, h.states_eq, fun id hmem ↦ (h.removed id hmem).imp_right .inl,
    fun n hn _ ↦ hu.tree_eq ▸ hn, hu.tree_eq ▸ Nat.le_refl _, fun b s hb hs ↦ ?_, fun b s n hb hs hn ↦ ?_,
    fun b s b' s' n hb hs hb' hs' _ _ ↦ (hplace hb hs).1.trans (hplace hb' hs').1.symm, fun b s hb hs hlive ↦ ?_⟩
  · obtain ⟨rfl, rfl⟩ := hplace hb hs
    exact hid
  · obtain ⟨rfl, rfl⟩ := hplace hb hs
    have hn := hnode.symm.trans hn
    exact ⟨hu.tree_eq ▸ hleaf n hn, .inl hn⟩
  · obtain ⟨rfl, rfl⟩ := hplace hb hs
    exact hstate hlive

theorem becomes_refl (hleaf : ∀ n, g.state.node = some n → g.executor.tree.isLeaf n = true)
    (hstate : g.state.id ∉ g.executor.removed → g.state.Able I ∧ P .current g.state) : g.Becomes I P g :=
  Advanced.becomes ⟨.refl _, fun _ _ ↦ rfl, fun _ h ↦ .inl h⟩ ⟨rfl, rfl⟩ rfl rfl hleaf hstate

theorem becomes_of_removed (hended : g.state.id ∈ g.executor.removed)
    (hleaf : ∀ n, g.state.node = some n → g.executor.tree.isLeaf n = true) : g.Becomes I P g :=
  becomes_refl hleaf fun h ↦ (h hended).elim

theorem becomes_of_two (s₂ : State) (hcontinues : g.executor.Continues f.executor) (hid : f.state.id = g.state.id)
    (hnext : f.executor.nextStateId = g.executor.nextStateId + 1)
    (hother : ∀ id < g.executor.nextStateId, f.executor.states[id]? = g.executor.states[id]?)
    (hremoved : f.executor.removed = g.executor.removed)
    (hhalves : g.executor.tree.Halves g.state.node f.state.node s₂.node f.executor.tree)
    (hnew : f.executor.states[g.executor.nextStateId]? = some s₂) (hid₂ : s₂.id = g.executor.nextStateId)
    (h₁ : f.state.Able I ∧ P .current f.state) (h₂ : s₂.Able I ∧ P (.forked g.executor.nextStateId) s₂) :
    g.Becomes I P f := by
  have hplaces : ∀ {b s}, g.Result f b → f.stateAt? b = some s →
      (b = .current ∧ f.state = s) ∨ (b = .forked g.executor.nextStateId ∧ s₂ = s) := by
    intro b s hb hs
    cases b with
    | current => exact .inl ⟨rfl, Option.some.inj hs⟩
    | forked id =>
      have hlt : id < g.executor.nextStateId + 1 := hnext ▸ hb.2
      obtain rfl : id = g.executor.nextStateId := Nat.le_antisymm (Nat.le_of_lt_succ hlt) hb.1
      exact .inr ⟨rfl, Option.some.inj (hnew.symm.trans hs)⟩
  have hleaf : ∀ n, f.state.node = some n ∨ s₂.node = some n → f.executor.tree.isLeaf n = true ∧
      (g.state.node = some n ∨ g.executor.tree.nodes.size ≤ n) := fun n hn ↦ (hhalves.leaf n hn).imp_right .inr
  refine ⟨hcontinues, hid, hother, fun id hmem ↦ .inl (hremoved ▸ hmem), hhalves.kept, hhalves.size_le,
    fun b s hb hs ↦ ?_, fun b s n hb hs hn ↦ ?_, fun b s b' s' n hb hs hb' hs' hn hn' ↦ ?_, fun b s hb hs _ ↦ ?_⟩
  · obtain ⟨rfl, rfl⟩ | ⟨rfl, rfl⟩ := hplaces hb hs
    · exact hid
    · exact hid₂
  · obtain ⟨rfl, rfl⟩ | ⟨rfl, rfl⟩ := hplaces hb hs
    · exact hleaf n (.inl hn)
    · exact hleaf n (.inr hn)
  · obtain ⟨rfl, rfl⟩ | ⟨rfl, rfl⟩ := hplaces hb hs
    · obtain ⟨rfl, rfl⟩ | ⟨rfl, rfl⟩ := hplaces hb' hs'
      · rfl
      · exact (hhalves.apart n hn hn').elim
    · obtain ⟨rfl, rfl⟩ | ⟨rfl, rfl⟩ := hplaces hb' hs'
      · exact (hhalves.apart n hn' hn).elim
      · rfl
  · obtain ⟨rfl, rfl⟩ | ⟨rfl, rfl⟩ := hplaces hb hs
    · exact h₁
    · exact h₂

/-! ## Work at a place -/

/-- The place was given out before, and is not the one at the side. -/
def Beside (g f : Focus σ) (side : Option Branch) (b : Branch) : Prop := side ≠ some b ∧ g.Result f b

theorem Result.mono (h : g.Result f b) (hle : f.executor.nextStateId ≤ f'.executor.nextStateId) :
    g.Result f' b := by
  cases b with
  | current => trivial
  | forked id => exact ⟨h.1, Nat.lt_of_lt_of_le h.2 hle⟩

theorem not_beside_relativeTo {inner : Branch} (h : f.Result f' inner) :
    ¬g.Beside f (some b) (inner.relativeTo b) := by
  rintro ⟨hne, hold⟩
  cases inner with
  | current => exact hne rfl
  | forked id => exact Nat.not_lt_of_le h.1 hold.2

theorem result_relativeTo {inner : Branch} (hle : g.executor.nextStateId ≤ f.executor.nextStateId)
    (hle' : f.executor.nextStateId ≤ f'.executor.nextStateId) (hb : g.Result f b) (h : f.Result f' inner) :
    g.Result f' (inner.relativeTo b) := by
  cases inner with
  | current => exact hb.mono hle'
  | forked id => exact ⟨Nat.le_trans hle h.1, h.2⟩

theorem relativeTo_inj {inner inner' : Branch} (hb : g.Result f b) (h : f.Result f' inner) (h' : f.Result f' inner')
    (heq : inner.relativeTo b = inner'.relativeTo b) : inner = inner' := by
  cases inner with
  | current =>
    cases inner' with
    | current => rfl
    | forked id =>
      obtain rfl : b = .forked id := heq
      exact (Nat.not_lt_of_le h'.1 hb.2).elim
  | forked id =>
    cases inner' with
    | current =>
      obtain rfl : .forked id = b := heq
      exact (Nat.not_lt_of_le h.1 hb.2).elim
    | forked id' => exact heq

theorem Becomes.place_cases (h : (f.view b s).Becomes I R f') (hb' : g.Result (f.back b f') b')
    (hs' : (f.back b f').stateAt? b' = some s') :
    (b' ≠ b ∧ g.Result f b' ∧ f.stateAt? b' = some s') ∨
      ∃ inner : Branch, b' = inner.relativeTo b ∧ (f.view b s).Result f' inner ∧ f'.stateAt? inner = some s' := by
  by_cases heq : b' = b
  · subst heq
    rw [stateAt?_back] at hs'
    exact .inr ⟨.current, rfl, trivial, hs'⟩
  · cases b' with
    | current =>
      cases b with
      | current => exact (heq rfl).elim
      | forked id => exact .inl ⟨heq, trivial, hs'⟩
    | forked id =>
      rw [stateAt?_back_forked (Ne.symm heq)] at hs'
      by_cases hold : id < f.executor.nextStateId
      · refine .inl ⟨heq, ⟨hb'.1, hold⟩, ?_⟩
        rw [h.states_eq id hold] at hs'
        cases b with
        | current => exact hs'
        | forked id' =>
          have hne : id' ≠ id := fun h ↦ heq (by rw [h])
          simpa only [view, stateAt?, Std.TreeMap.getElem?_erase, Std.LawfulEqCmp.compare_eq_iff_eq, hne,
            if_false] using hs'
      · exact .inr ⟨.forked id, rfl, ⟨Nat.le_of_not_lt hold, hb'.2⟩, hs'⟩

theorem Becomes.back (hf : g.Becomes I P f) (hb : g.Result f b) (hs : f.stateAt? b = some s)
    (h : (f.view b s).Becomes I R f') :
    g.Becomes I (fun b' s' ↦ (b' ≠ b ∧ g.Result f b' ∧ P b' s') ∨
      ∃ inner : Branch, b' = inner.relativeTo b ∧ f.Result (f.back b f') inner ∧ R inner s') (f.back b f') := by
  have hsize {n : NodeId} (hn : g.executor.tree.isLeaf n = true) : n < g.executor.tree.nodes.size :=
    ProcessTree.lt_size_of_isLeaf hn
  have hname := hf.named b s hb hs
  have hnext : g.executor.nextStateId ≤ f.executor.nextStateId := hf.continues.next_le
  have hnext' : f.executor.nextStateId ≤ f'.executor.nextStateId := h.continues.next_le
  have hown : s.id = g.state.id ∨ g.executor.nextStateId ≤ s.id ∧ s.id < f.executor.nextStateId := by
    cases b with
    | current => exact .inl hname
    | forked id => exact .inr (hname ▸ hb)
  have hc := h.continues
  refine ⟨hf.continues.trans hc.back, ?_, fun id hid ↦ ?_, fun id hid ↦ ?_, fun n hn hne ↦ ?_,
    Nat.le_trans hf.size_le h.size_le, fun b' s' hb' hs' ↦ ?_, fun b' s' n hb' hs' hn ↦ ?_,
    fun b₁ s₁ b₂ s₂ n hb₁ hs₁ hb₂ hs₂ hn₁ hn₂ ↦ ?_, fun b' s' hb' hs' hlive ↦ ?_⟩
  · cases b with
    | current => exact h.id_eq.trans hname
    | forked id => exact hf.id_eq
  · have hstates := h.states_eq id (Nat.lt_of_lt_of_le hid hnext)
    cases b with
    | current => exact hstates.trans (hf.states_eq id hid)
    | forked id' =>
      have hne : id' ≠ id := Nat.ne_of_gt (Nat.lt_of_lt_of_le hid hb.1)
      simp only [view, Std.TreeMap.getElem?_erase, Std.LawfulEqCmp.compare_eq_iff_eq, hne, if_false] at hstates
      simp only [Focus.back, Std.TreeMap.getElem?_insert, Std.LawfulEqCmp.compare_eq_iff_eq, hne, if_false]
      exact hstates.trans (hf.states_eq id hid)
  · obtain hid | rfl | hid := h.removed id hid
    · exact (hf.removed id hid).imp_right (Or.imp_right fun h ↦ ⟨h.1, Nat.lt_of_lt_of_le h.2 hnext'⟩)
    · exact .inr (hown.imp_right fun h ↦ ⟨h.1, Nat.lt_of_lt_of_le h.2 hnext'⟩)
    · exact .inr (.inr ⟨Nat.le_trans hnext hid.1, hid.2⟩)
  · refine h.kept n (hf.kept n hn hne) fun hnode ↦ ?_
    exact (hf.leaf b s n hb hs hnode).2.elim hne (Nat.not_le_of_lt (hsize hn))
  · obtain ⟨-, hb', hs'⟩ | ⟨inner, rfl, hinner, hs'⟩ := h.place_cases hb' hs'
    · exact hf.named b' s' hb' hs'
    · rw [h.named inner s' hinner hs']
      cases inner with
      | current => exact hname
      | forked id => rfl
  · obtain ⟨hne, hb', hs'⟩ | ⟨inner, rfl, hinner, hs'⟩ := h.place_cases hb' hs'
    · obtain ⟨hleaf, hwhere⟩ := hf.leaf b' s' n hb' hs' hn
      exact ⟨h.kept n hleaf fun hnode ↦ hne (hf.apart b' s' b s n hb' hs' hb hs hn hnode), hwhere⟩
    · obtain ⟨hleaf, hwhere⟩ := h.leaf inner s' n hinner hs' hn
      exact ⟨hleaf, hwhere.elim (fun hnode ↦ (hf.leaf b s n hb hs hnode).2) fun hn ↦
        .inr (Nat.le_trans hf.size_le hn)⟩
  · -- a node of before is not one of those that were added
    have hcross : ∀ {b' s' inner s''}, b' ≠ b → g.Result f b' → f.stateAt? b' = some s' →
        (f.view b s).Result f' inner → f'.stateAt? inner = some s'' → s'.node = some n → s''.node ≠ some n := by
      intro b' s' inner s'' hne hb' hs' hinner hs'' hn' hn''
      obtain hnode | hle := (h.leaf inner s'' n hinner hs'' hn'').2
      · exact hne (hf.apart b' s' b s n hb' hs' hb hs hn' hnode)
      · exact Nat.not_le_of_lt (ProcessTree.lt_size_of_isLeaf (hf.leaf b' s' n hb' hs' hn').1) hle
    obtain ⟨hne₁, hb₁, hs₁⟩ | ⟨inner₁, rfl, hinner₁, hs₁⟩ := h.place_cases hb₁ hs₁
    · obtain ⟨-, hb₂, hs₂⟩ | ⟨inner₂, rfl, hinner₂, hs₂⟩ := h.place_cases hb₂ hs₂
      · exact hf.apart b₁ s₁ b₂ s₂ n hb₁ hs₁ hb₂ hs₂ hn₁ hn₂
      · exact (hcross hne₁ hb₁ hs₁ hinner₂ hs₂ hn₁ hn₂).elim
    · obtain ⟨hne₂, hb₂, hs₂⟩ | ⟨inner₂, rfl, hinner₂, hs₂⟩ := h.place_cases hb₂ hs₂
      · exact (hcross hne₂ hb₂ hs₂ hinner₁ hs₁ hn₂ hn₁).elim
      · rw [h.apart inner₁ s₁ inner₂ s₂ n hinner₁ hs₁ hinner₂ hs₂ hn₁ hn₂]
  · obtain ⟨hne, hb', hs'⟩ | ⟨inner, rfl, hinner, hs'⟩ := h.place_cases hb' hs'
    · have hlive : s'.id ∉ f.executor.removed := fun hmem ↦ hlive (hc.removed _ hmem)
      exact (hf.parts b' s' hb' hs' hlive).imp_right fun hP ↦ .inl ⟨hne, hb', hP⟩
    · exact (h.parts inner s' hinner hs' hlive).imp_right fun hR ↦ .inr ⟨inner, rfl, hinner, hR⟩

theorem Becomes.workable (hg : g.Workable I) (hf : g.Becomes I P f) (hb : g.Result f b)
    (hs : f.stateAt? b = some s) (hlive : s.id ∉ f.executor.removed)
    (htrace : ∃ t, s.stackTrace f.executor.program = .ok t) : (f.view b s).Workable I where
  unrestrained := hg.unrestrained.continues (hf.continues.view b s)
  able := (hf.parts b s hb hs hlive).1
  live := hlive
  id_lt := hf.named b s hb hs ▸ hb.idFrom_lt hg.id_lt hf.continues.next_le
  removed_lt id hid := by
    have hle : g.executor.nextStateId ≤ f.executor.nextStateId := hf.continues.next_le
    obtain hid | rfl | hid := hf.removed id hid
    · exact Nat.lt_of_lt_of_le (hg.removed_lt id hid) hle
    · exact Nat.lt_of_lt_of_le hg.id_lt hle
    · exact hid.2
  leaf n hn := (hf.leaf b s n hb hs hn).1
  trace := htrace

variable {g₀ : Focus σ}

/-- The state of `g` has the data of that of `g₀`, and solutions only that are within `A`. -/
structure Share (I : Inputs) (A : Assignment → Prop) (g₀ g : Focus σ) : Prop extends g.Workable I where
  continues : g₀.executor.Continues g.executor
  data : g₀.state.SameData g.state
  confined : g.state.Confined I A

theorem Workable.share (h : g.Workable I) : g.Share I (fun _ ↦ True) g := ⟨h, .refl _, .refl _, fun _ _ ↦ trivial⟩

theorem Share.view (h : g₀.Share I B g) (hf : g.Becomes I P f) (hb : g.Result f b) (hs : f.stateAt? b = some s)
    (hlive : s.id ∉ f.executor.removed) (hdata : g₀.state.SameData s) (hconfined : s.Confined I A) :
    g₀.Share I A (f.view b s) where
  toWorkable := by
    refine hf.workable h.toWorkable hb hs hlive ?_
    obtain ⟨t, ht⟩ := h.trace
    refine ⟨t, ?_⟩
    rw [hdata.stackTrace_eq, hf.continues.program_eq, ← h.data.stackTrace_eq, ht]
  continues := (h.continues.trans hf.continues).view b s
  data := hdata
  confined := hconfined

theorem Share.asked {solver : Solver σ} (h : g₀.Share I A g) (hsame : g.executor.solver.Same solver)
    (hB : g.state.Confined I B) : g₀.Share I B (g.withSolver solver) where
  toWorkable :=
    have hu := h.unrestrained.continues (.withSolver hsame)
    ⟨hu, h.able, h.live, h.id_lt, h.removed_lt, h.leaf, h.trace⟩
  continues := h.continues.trans (.withSolver hsame)
  data := h.data
  confined := hB

end Focus

namespace Exec

variable {f g g₀ : Focus σ} {b : Branch} {x : Exec σ α} {condition : Expr} {P : Branch → State → Prop}

/-! ## Results -/

/-- The work ends with a result and makes of the state what `R` says of this result, or it fails and the state is to
end. `V` says of the result which ids were given out. -/
def Turns (I : Inputs) (F : Fault → Prop) (x : Exec σ α) (g : Focus σ) (V : α → StateId → Prop)
    (R : α → Branch → State → Prop) : Prop :=
  x.Ends F g fun r f ↦
    match r with
    | .ok a => V a f.executor.nextStateId ∧ g.Becomes I (R a) f
    | .error e => (settle e).Ends F f fun r f ↦ r = .ok () ∧ g.Becomes I (fun _ _ ↦ False) f

theorem Turns.imp {V : α → StateId → Prop} {R R' : α → Branch → State → Prop} (h : x.Turns I F g V R)
    (himp : ∀ a b s, s.Able I → R a b s → R' a b s) : x.Turns I F g V R' :=
  Ends.mono h fun r _ h ↦ by
    cases r with
    | ok a => exact ⟨h.1, h.2.imp fun b s _ _ _ ↦ himp a b s⟩
    | error e => exact h

theorem Turns.asked {V : α → StateId → Prop} {R : α → Branch → State → Prop} {solver : Solver σ}
    (h : x.Turns I F (g.withSolver solver) V R) (hsame : g.executor.solver.Same solver) :
    x.Ends F (g.withSolver solver) fun r f ↦
      match r with
      | .ok a => V a f.executor.nextStateId ∧ g.Becomes I (R a) f
      | .error e => (settle e).Ends F f fun r f ↦ r = .ok () ∧ g.Becomes I (fun _ _ ↦ False) f :=
  Ends.mono h fun r _ h ↦ by
    cases r with
    | ok a => exact h.imp_right (·.asked hsame)
    | error e => exact Ends.mono h fun _ _ h ↦ h.imp_right (·.asked hsame)

theorem ends_onBranch_becomes {V : α → StateId → Prop} {R : α → Branch → State → Prop} (hf : g.Becomes I P f)
    (hb : g.Result f b) (hx : ∀ s, f.stateAt? b = some s → s.id ∉ f.executor.removed →
      x.Turns I F (f.view b s) V R) :
    (onBranch b x).Ends F f fun r f' ↦ ∃ o, r = .ok o ∧ (∀ a ∈ o, V a f'.executor.nextStateId) ∧
      f.executor.nextStateId ≤ f'.executor.nextStateId ∧
      g.Becomes I (fun b' s' ↦ (b' ≠ b ∧ g.Result f b' ∧ P b' s') ∨
        ∃ a ∈ o, ∃ inner : Branch, b' = inner.relativeTo b ∧ f.Result f' inner ∧ R a inner s') f' := by
  by_cases hlive : ∃ s, f.stateAt? b = some s ∧ s.id ∉ f.executor.removed
  · obtain ⟨s, hs, hlive⟩ := hlive
    refine ends_onBranch hs hlive (Ends.mono (hx s hs hlive) fun r f' h ↦ ?_)
    cases r with
    | ok a =>
      refine ⟨some a, rfl, ?_, h.2.continues.next_le, (hf.back hb hs h.2).imp fun b' s' _ _ _ _ hR ↦
        hR.imp_right fun hR ↦ ⟨a, rfl, hR⟩⟩
      rintro _ ⟨⟩
      exact h.1
    | error e =>
      refine h.mono fun r f' h ↦ ?_
      obtain ⟨rfl, h⟩ := h
      refine ⟨none, rfl, nofun, h.continues.next_le, (hf.back hb hs h).imp fun b' s' _ _ _ _ hR ↦ hR.imp_right ?_⟩
      rintro ⟨_, -, -, ⟨⟩⟩
  · -- nothing is there any more
    have hnone : ∀ {f'}, g.Becomes I (fun b' s' ↦ (b' ≠ b ∧ g.Result f b' ∧ P b' s') ∨
        ∃ inner : Branch, b' = inner.relativeTo b ∧ f.Result f' inner ∧ False) f' →
        f.executor.nextStateId ≤ f'.executor.nextStateId →
        ∃ o : Option α, (.ok none : Except PathError (Option α)) = .ok o ∧ (∀ a ∈ o, V a f'.executor.nextStateId) ∧
          f.executor.nextStateId ≤ f'.executor.nextStateId ∧
          g.Becomes I (fun b' s' ↦ (b' ≠ b ∧ g.Result f b' ∧ P b' s') ∨
            ∃ a ∈ o, ∃ inner : Branch, b' = inner.relativeTo b ∧ f.Result f' inner ∧ R a inner s') f' := by
      intro f' hf' hle
      exact ⟨none, rfl, nofun, hle, hf'.imp fun b' s' _ _ _ _ h ↦ h.imp_right fun h ↦ h.choose_spec.2.2.elim⟩
    have hended : ∀ s, f.stateAt? b = some s → s.id ∈ f.executor.removed := fun s hs ↦
      Classical.byContradiction fun hmem ↦ hlive ⟨s, hs, hmem⟩
    have hback : ∀ s, f.stateAt? b = some s → g.Becomes I (fun b' s' ↦ (b' ≠ b ∧ g.Result f b' ∧ P b' s') ∨
        ∃ inner : Branch, b' = inner.relativeTo b ∧ f.Result (f.back b (f.view b s)) inner ∧ False)
        (f.back b (f.view b s)) := fun s hs ↦
      hf.back hb hs (Focus.becomes_of_removed (hended s hs) fun n hn ↦ (hf.leaf b s n hb hs hn).1)
    cases b with
    | current =>
      refine ends_settling (fun _ ↦ hnone (hback f.state rfl) (Nat.le_refl _)) fun hgoing ↦ ?_
      exact absurd (hended f.state rfl) (by simpa using hgoing)
    | forked id =>
      refine ends_bind (P := fun r f' ↦ ∃ o : Option (Option α), r = .ok o ∧ ∃ o', o.join = o' ∧
        (∀ a ∈ o', V a f'.executor.nextStateId) ∧ f.executor.nextStateId ≤ f'.executor.nextStateId ∧
        g.Becomes I (fun b' s' ↦ (b' ≠ .forked id ∧ g.Result f b' ∧ P b' s') ∨
          ∃ a ∈ o', ∃ inner : Branch, b' = inner.relativeTo (.forked id) ∧ f.Result f' inner ∧ R a inner s') f')
        (ends_visit (fun hno ↦ ?_) fun s hs ↦ ends_settling (fun _ ↦ ?_) fun hgoing ↦ ?_) ?_ ?_
      · refine ⟨none, rfl, none, rfl, nofun, Nat.le_refl _, hf.imp fun b' s' hb' hs' _ _ hP ↦ .inl ⟨?_, hb', hP⟩⟩
        rintro rfl
        exact nomatch hno.symm.trans hs'
      · obtain ⟨o, ho, h⟩ := hnone (hback s hs) (Nat.le_refl _)
        obtain rfl := Except.ok.inj ho
        exact ⟨some none, rfl, none, rfl, h⟩
      · exact absurd (hended s hs) (by simpa using hgoing)
      · rintro _ f' ⟨o, ⟨⟩, o', rfl, h⟩
        exact ends_pure ⟨_, rfl, h⟩
      · rintro _ _ ⟨_, ⟨⟩, -⟩

/-! ## Forks -/

/-- The sides of a fork, where `id` is the id for a copy of the state. -/
inductive SidesOf (id : StateId) : Sides → StateId → Prop
  | holds (next : StateId) : SidesOf id (some .current, none) next
  | fails (next : StateId) : SidesOf id (none, some .current) next
  | both {next : StateId} (h : id < next) : SidesOf id (some .current, some (.forked id)) next

theorem SidesOf.result {sides : Sides} (h : SidesOf g.executor.nextStateId sides f.executor.nextStateId)
    (hb : sides.1 = some b ∨ sides.2 = some b) : g.Result f b := by
  cases h with
  | holds =>
    obtain ⟨⟨⟩⟩ | ⟨⟨⟩⟩ := hb
    trivial
  | fails =>
    obtain ⟨⟨⟩⟩ | ⟨⟨⟩⟩ := hb
    trivial
  | both h =>
    obtain ⟨⟨⟩⟩ | ⟨⟨⟩⟩ := hb
    · trivial
    · exact ⟨Nat.le_refl _, h⟩

theorem SidesOf.apart {id next : StateId} {sides : Sides} (h : SidesOf id sides next) (hb : sides.1 = some b) :
    sides.2 ≠ some b := by
  cases h with
  | holds => nofun
  | fails => cases hb
  | both =>
    cases hb
    rintro ⟨⟩

/-- What is at the sides of a fork: the data of the state, and those of its solutions that belong there. -/
def AtSide (I : Inputs) (condition : Expr) (s₀ : State) (sides : Sides) (b : Branch) (s : State) : Prop :=
  s₀.SameData s ∧ s.Confined I fun a ↦ I.Solves a s₀.constraints ∧
    (sides.1 = some b ∧ a.val condition ≠ 0 ∨ sides.2 = some b ∧ a.val condition = 0)

theorem turns_fork (hg : g.Workable I) (hcond : condition.IsTruth) :
    (fork condition true).Turns I F g (SidesOf g.executor.nextStateId) (AtSide I condition g.state) := by
  have hasked {solver : Solver σ} {R : Branch → State → Prop} (hsame : g.executor.solver.Same solver)
      (hR : R .current g.state) : g.Becomes I R (g.withSolver solver) :=
    Focus.Advanced.becomes (.withSolver hsame) ⟨rfl, rfl⟩ rfl rfl hg.leaf fun _ ↦ ⟨hg.able, hR⟩
  refine ends_fork g hg.able.valid hg.able.satisfiable hcond (hg.unrestrained.seeds _) hg.unrestrained.exact
    (.inl rfl) (fun solver hsame hall ↦ ⟨.holds _, hasked hsame ⟨.refl _, fun a ha ↦ ⟨ha, .inl ⟨rfl, hall a ha⟩⟩⟩⟩)
    (fun solver hsame hnone ↦ ⟨.fails _, hasked hsame ⟨.refl _, fun a ha ↦ ⟨ha, .inr ⟨rfl, hnone a ha⟩⟩⟩⟩)
    (fun solver hsame htrue hfalse _ ↦ ?_) fun _ _ _ _ hinhibited ↦ absurd hinhibited
      (hg.unrestrained.not_inhibited hg.able.enabled)
  refine ends_split_halves (g.withSolver solver) hg.able.valid hcond (hg.unrestrained.seeds _) htrue hfalse hg.leaf
    (hg.unrestrained.seeds _) hg.unrestrained.maxDepth
    fun left right tree c₁ c₂ hhalves hc₁ hc₂ hsolves₁ hsolves₂ ↦ ⟨.both (Nat.lt_succ_self _), ?_⟩
  obtain ⟨a₁, ha₁⟩ := htrue
  obtain ⟨a₂, ha₂⟩ := hfalse
  refine Focus.becomes_of_two (g.state.divided g.executor.nextStateId right c₂ false true) ⟨rfl, rfl, rfl, rfl,
    rfl, .refl _, rfl, hsame, Nat.le_succ _, Nat.le_refl _, fun _ h ↦ h, [], (List.append_nil _).symm,
    fun _ h ↦ .inl h⟩ rfl rfl (fun id hid ↦ ?_) rfl hhalves Std.TreeMap.getElem?_insert_self rfl
    ⟨⟨hc₁, ⟨a₁, (hsolves₁ a₁).2 ha₁⟩, hg.able.enabled⟩, State.sameData_divided .., fun a ha ↦ ?_⟩
    ⟨⟨hc₂, ⟨a₂, (hsolves₂ a₂).2 ha₂⟩, hg.able.enabled⟩, State.sameData_divided .., fun a ha ↦ ?_⟩
  · have hne : g.executor.nextStateId ≠ id := Nat.ne_of_gt hid
    simp [Focus.withSolver, Std.TreeMap.getElem?_insert, hne]
  · have ha := (hsolves₁ a).1 ha
    exact ⟨ha.1, .inl ⟨rfl, ha.2⟩⟩
  · have ha := (hsolves₂ a).1 ha
    exact ⟨ha.1, .inr ⟨rfl, ha.2⟩⟩

/-! ## Effects -/

/-- Whatever share of the state of `g₀` with solutions within `A` the work is done on, it makes states of it that are
as `Q` says. -/
def Effects (I : Inputs) (F : Fault → Prop) (g₀ : Focus σ) (A : Assignment → Prop) (Q : State → Prop)
    (x : Exec σ Unit) : Prop :=
  ∀ g, g₀.Share I A g → x.Turns I F g (fun _ _ ↦ True) fun _ _ s ↦ Q s

/-- The work at a side makes states of what is there that are as `Q` says, and leaves the others alone. -/
def EffectsAt (I : Inputs) (F : Fault → Prop) (g₀ : Focus σ) (A : Assignment → Prop) (Q : State → Prop)
    (k : Option Branch → Exec σ Unit) : Prop :=
  ∀ {B g f P} (side : Option Branch), g₀.Share I B g → g.Becomes I P f →
    (∀ b, side = some b → g.Result f b ∧ ∀ s, P b s → g₀.state.SameData s ∧ s.Confined I A) →
    (k side).Ends F f fun r f' ↦ r = .ok () ∧ f.executor.nextStateId ≤ f'.executor.nextStateId ∧
      g.Becomes I (fun b s ↦ (g.Beside f side b ∧ P b s) ∨ (¬g.Beside f side b ∧ Q s)) f'

theorem effectsAt_onSide {y : Exec σ Unit} (hy : Effects I F g₀ A Q y) : EffectsAt I F g₀ A Q (onSide · y) := by
  intro B g f P side hg hf hside
  cases side with
  | none => exact ends_pure ⟨rfl, Nat.le_refl _, hf.imp fun b s hb _ _ _ hP ↦ .inl ⟨⟨nofun, hb⟩, hP⟩⟩
  | some b =>
    obtain ⟨hb, hP⟩ := hside b rfl
    refine ends_bind (ends_onBranch_becomes (V := fun _ _ ↦ True) (R := fun _ _ ↦ Q) hf hb fun s hs hlive ↦ ?_) ?_ ?_
    · obtain ⟨hdata, hconfined⟩ := hP s (hf.parts b s hb hs hlive).2
      exact hy _ (hg.view hf hb hs hlive hdata hconfined)
    · rintro _ f' ⟨o, ⟨⟩, -, hle, hf'⟩
      refine ends_pure ⟨rfl, hle, hf'.imp fun b' s' _ _ _ _ h ↦ h.imp ?_ ?_⟩
      · exact fun ⟨hne, hb', hP⟩ ↦ ⟨⟨fun heq ↦ hne (Option.some.inj heq).symm, hb'⟩, hP⟩
      · rintro ⟨_, -, inner, rfl, hinner, hQ⟩
        exact ⟨Focus.not_beside_relativeTo hinner, hQ⟩
    · rintro _ _ ⟨_, ⟨⟩, -⟩

theorem effects_fork {k₁ k₂ : Option Branch → Exec σ Unit} (hcond : condition.IsTruth)
    (h₁ : EffectsAt I F g₀ (fun a ↦ A a ∧ a.val condition ≠ 0) Q k₁)
    (h₂ : EffectsAt I F g₀ (fun a ↦ A a ∧ a.val condition = 0) Q k₂) :
    Effects I F g₀ A Q (do
      let (holds, fails) ← fork condition true
      k₁ holds
      k₂ fails) := by
  intro g hg
  refine ends_bind (turns_fork hg.toWorkable hcond) (fun sides f h ↦ ?_) fun _ _ h ↦ h
  obtain ⟨hsides, hf⟩ := h
  obtain ⟨holds, fails⟩ := sides
  refine ends_bind (h₁ holds hg hf fun b hb ↦ ⟨hsides.result (.inl hb), fun s hs ↦ ⟨hg.data.trans hs.1, fun a ha ↦ ?_⟩⟩)
    ?_ (by rintro _ _ ⟨⟨⟩, -⟩)
  · obtain ⟨ha, ⟨-, hne⟩ | ⟨hb', -⟩⟩ := hs.2 a ha
    · exact ⟨hg.confined a ha, hne⟩
    · exact (hsides.apart hb hb').elim
  rintro _ f₁ ⟨⟨⟩, hle, hf₁⟩
  refine Ends.mono (h₂ fails hg hf₁ fun b hb ↦ ?_) ?_
  · have hresult : g.Result f b := hsides.result (.inr hb)
    have hbeside : g.Beside f holds b := ⟨fun heq ↦ hsides.apart heq hb, hresult⟩
    refine ⟨hresult.mono hle, fun s hs ↦ ?_⟩
    obtain ⟨-, hs⟩ := hs.resolve_right fun h ↦ h.1 hbeside
    refine ⟨hg.data.trans hs.1, fun a ha ↦ ?_⟩
    obtain ⟨ha, ⟨hb', -⟩ | ⟨-, hzero⟩⟩ := hs.2 a ha
    · exact (hsides.apart hb' hb).elim
    · exact ⟨hg.confined a ha, hzero⟩
  · rintro _ f₂ ⟨rfl, -, hf₂⟩
    refine ⟨trivial, hf₂.imp fun b s _ _ _ hable h ↦ ?_⟩
    obtain ⟨hbeside₂, ⟨hbeside₁, hs⟩ | ⟨-, hQ⟩⟩ | ⟨-, hQ⟩ := h
    · -- a live state has a solution, which belongs to one of the sides
      obtain ⟨a, ha⟩ := hable.satisfiable
      obtain ⟨-, ⟨hb, -⟩ | ⟨hb, -⟩⟩ := hs.2 a ha
      · exact (hbeside₁.1 hb).elim
      · exact (hbeside₂.1 hb).elim
    · exact hQ
    · exact hQ

/-! ### States that end -/

theorem ends_terminateOnError_becomes (hg : g.Workable I) (error : ExecError) (details : Option String) :
    (terminateOnError ⟨g.executor.location, error⟩ details).Ends F g fun r f ↦ r = .ok () ∧ g.Becomes I P f :=
  ends_terminateOnError g hg.live hg.able.valid hg.able.satisfiable hg.unrestrained.exact hg.trace
    fun _ hadvanced hunforked hstate hended _ ↦ ⟨rfl, hadvanced.becomes hunforked (by rw [hstate]) (by rw [hstate])
      hg.leaf fun hlive ↦ absurd hended (hstate ▸ hlive)⟩

theorem effects_terminateOnError (error : ExecError) (details : Option String) :
    Effects I F g₀ A Q (do terminateOnError ⟨(← executor).location, error⟩ details) := by
  intro g hg
  refine ends_bind_ok rfl (Ends.mono (ends_terminateOnError_becomes (P := fun _ ↦ Q) hg.toWorkable error details) ?_)
  rintro _ f ⟨rfl, h⟩
  exact ⟨trivial, h⟩

theorem effects_addressInfo {p : Expr} (hp : p.WellFormed) (error : ExecError) :
    Effects I F g₀ A Q (do
      let details ← addressInfo p
      terminateOnError ⟨(← executor).location, error⟩ (some details)) := by
  intro g hg
  refine ends_seq (ends_addressInfo hg.able.valid hg.able.satisfiable hg.unrestrained.exact hp
    fun info solver hsame ↦ ends_bind_ok rfl (Ends.mono (ends_terminateOnError_becomes (P := fun _ ↦ Q)
      (hg.asked hsame hg.confined).toWorkable error (some info)) ?_))
  rintro _ f ⟨rfl, h⟩
  exact ⟨trivial, h.asked hsame⟩

theorem ends_settle_becomes (hg : g.Workable I) {error : ExecError} (hfatal : error.isFatal = false)
    (hkind : error.kind ≠ .early) :
    (settle ⟨g.executor.location, error⟩).Ends F g fun r f ↦ r = .ok () ∧ g.Becomes I P f := by
  unfold settle
  rw [if_neg (by simp [hfatal]), if_neg hkind]
  exact ends_terminateOnError_becomes hg error none

/-! ### Steps on the way -/

theorem effects_query {x : ConstraintSet → Ask σ β} {k : β → Exec σ Unit} {R : ConstraintSet → β → Prop}
    {B : β → Assignment → Prop} (hx : ∀ c : ConstraintSet, c.Valid → I.Satisfiable c → (x c).Answers I False (R c))
    (hB : ∀ (c : ConstraintSet) b a, R c b → I.Solves a c → A a → B b a)
    (hk : ∀ c b, I.Satisfiable c → R c b → Effects I F g₀ (B b) Q (k b)) : Effects I F g₀ A Q (query x >>= k) := by
  intro g hg
  refine ends_seq (ends_query (hx _ hg.able.valid hg.able.satisfiable) hg.unrestrained.exact
    (fun b solver hsame hb ↦ ?_) fun _ _ h ↦ h.elim)
  exact (hk _ b hg.able.satisfiable hb _ (hg.asked hsame fun a ha ↦ hB _ b a hb ha (hg.confined a ha))).asked hsame

theorem effects_lift {c : Checked β} {k : β → Exec σ Unit} {v : β} (hc : c = .ok v)
    (hk : Effects I F g₀ A Q (k v)) : Effects I F g₀ A Q (liftM c >>= k) := fun g hg ↦
  ends_seq (ends_lift (Checked.ends_of_eq hc (hk g hg)))

end Exec

end Symex
