import Symex.Proofs.Integrity.States
import Symex.Proofs.Lineage.Moves

namespace Symex

open Checked

variable {σ α β : Type}

/-- What does not change while an instruction is executed, and the shape that it started from. -/
structure Origin where
  program : Program
  location : Location
  start : Shape

namespace Focus

variable {o : Origin} {N M N' : Branch → Shape → Prop} {f g h : Focus σ} {id : StateId} {s : State}

def bound (f : Focus σ) : Nat := f.executor.allocator.nextId

/-- The state at the place has not ended in this step. -/
def GoingAt (f : Focus σ) : Branch → Prop
  | .current => f.Going
  | .forked id => id ∉ f.executor.removed

/-- The machine after some work on the state of `f`. States that were there before are where they were, and
the shapes of the others are as `N` says. -/
structure Reaches (o : Origin) (N : Branch → Shape → Prop) (f g : Focus σ) : Prop where
  succeeds : f.Succeeds g
  program_eq : g.executor.program = o.program
  location_eq : g.executor.location = o.location
  constants_eq : g.executor.constants.size = o.program.constants.size
  bound_le : f.bound ≤ g.bound
  base : ∀ id s, f.executor.states[id]? = some s → id ∉ f.executor.removed → s.shape.Kept o.program f.bound
  old : ∀ id < f.executor.nextStateId, ∀ s, g.executor.states[id]? = some s →
    ∃ s₀, f.executor.states[id]? = some s₀ ∧ s.shape = s₀.shape
  own : N .current g.state.shape
  new : ∀ id ≥ f.executor.nextStateId, ∀ s, g.executor.states[id]? = some s → N (.forked id) s.shape

theorem Reaches.mono (hg : f.Reaches o N g) (h : ∀ b sh, N b sh → N' b sh) : f.Reaches o N' g :=
  { hg with
    own := h _ _ hg.own
    new := fun id hid s hs ↦ h _ _ (hg.new id hid s hs) }

theorem Reaches.trans (hg : f.Reaches o N g) (hh : g.Reaches o M h)
    (hold : ∀ id < g.executor.nextStateId, ∀ sh, N (.forked id) sh → N' (.forked id) sh)
    (hself : ∀ sh, M .current sh → N' .current sh)
    (hnew : ∀ id ≥ g.executor.nextStateId, ∀ sh, M (.forked id) sh → N' (.forked id) sh) :
    f.Reaches o N' h where
  succeeds := by
    refine ⟨hh.succeeds.tidy, hh.succeeds.id_eq.trans hg.succeeds.id_eq,
      hh.succeeds.config_eq.trans hg.succeeds.config_eq,
      Nat.le_trans hg.succeeds.next_le hh.succeeds.next_le,
      fun id hid ↦ hh.succeeds.removed_sub id (hg.succeeds.removed_sub id hid), fun id hlt hnone ↦ ?_⟩
    exact hh.succeeds.old id (Nat.lt_of_lt_of_le hlt hg.succeeds.next_le) (hg.succeeds.old id hlt hnone)
  program_eq := hh.program_eq
  location_eq := hh.location_eq
  constants_eq := hh.constants_eq
  bound_le := Nat.le_trans hg.bound_le hh.bound_le
  base := hg.base
  old id hlt s hs := by
    obtain ⟨s₁, hs₁, hshape⟩ := hh.old id (Nat.lt_of_lt_of_le hlt hg.succeeds.next_le) s hs
    obtain ⟨s₀, hs₀, hshape₀⟩ := hg.old id hlt s₁ hs₁
    exact ⟨s₀, hs₀, hshape.trans hshape₀⟩
  own := hself _ hh.own
  new id hid s hs := by
    by_cases hlt : id < g.executor.nextStateId
    · obtain ⟨s₁, hs₁, hshape⟩ := hh.old id hlt s hs
      rw [hshape]
      exact hold id hlt _ (hg.new id hid s₁ hs₁)
    · exact hnew id (Nat.le_of_not_lt hlt) _ (hh.new id (Nat.le_of_not_lt hlt) s hs)

theorem Reaches.visit (hg : f.Reaches o N g) (hid : f.executor.nextStateId ≤ id)
    (hs : g.executor.states[id]? = some s)
    (hh : Reaches o M ⟨{ g.executor with states := g.executor.states.erase id }, s⟩ h)
    (hown : ∀ sh, N .current sh → N' .current sh)
    (hold : ∀ id' < g.executor.nextStateId, id' ≠ id → ∀ sh, N (.forked id') sh → N' (.forked id') sh)
    (hself : ∀ sh, M .current sh → N' (.forked id) sh)
    (hnew : ∀ id' ≥ g.executor.nextStateId, ∀ sh, M (.forked id') sh → N' (.forked id') sh) :
    f.Reaches o N' ⟨{ h.executor with states := h.executor.states.insert id h.state }, g.state⟩ := by
  have hsucceeds := Succeeds.visit hg.succeeds.tidy hs hh.succeeds
  have hlt := (hg.succeeds.tidy.named id s hs).2
  -- a state other than the one that was visited
  have hother : ∀ id' s', (h.executor.states.insert id h.state)[id']? = some s' → id ≠ id' →
      h.executor.states[id']? = some s' := by
    intro id' s' hs' hne
    rwa [getElem?_insert_state, if_neg hne] at hs'
  have hbefore : ∀ id' < g.executor.nextStateId, ∀ s', h.executor.states[id']? = some s' → id ≠ id' →
      ∃ s₁, g.executor.states[id']? = some s₁ ∧ s'.shape = s₁.shape := by
    intro id' hlt' s' hs' hne
    obtain ⟨s₁, hs₁, hshape⟩ := hh.old id' hlt' s' hs'
    dsimp only at hs₁
    rw [getElem?_erase_state, if_neg hne] at hs₁
    exact ⟨s₁, hs₁, hshape⟩
  refine ⟨?_, hh.program_eq, hh.location_eq, hh.constants_eq, Nat.le_trans hg.bound_le hh.bound_le, hg.base,
    fun id' hlt' s' hs' ↦ ?_, hown _ hg.own, fun id' hid' s' hs' ↦ ?_⟩
  · refine ⟨hsucceeds.tidy, hg.succeeds.id_eq, hsucceeds.config_eq.trans hg.succeeds.config_eq,
      Nat.le_trans hg.succeeds.next_le hsucceeds.next_le,
      fun id' hid' ↦ hsucceeds.removed_sub id' (hg.succeeds.removed_sub id' hid'), fun id' hlt' hnone ↦ ?_⟩
    exact hsucceeds.old id' (Nat.lt_of_lt_of_le hlt' hg.succeeds.next_le) (hg.succeeds.old id' hlt' hnone)
  · have hne : id ≠ id' := fun heq ↦ Nat.not_lt.2 hid (heq ▸ hlt')
    obtain ⟨s₁, hs₁, hshape⟩ := hbefore id' (Nat.lt_of_lt_of_le hlt' hg.succeeds.next_le) s'
      (hother id' s' hs' hne) hne
    obtain ⟨s₀, hs₀, hshape₀⟩ := hg.old id' hlt' s₁ hs₁
    exact ⟨s₀, hs₀, hshape.trans hshape₀⟩
  · by_cases hne : id = id'
    · subst hne
      dsimp only at hs'
      rw [getElem?_insert_state, if_pos rfl] at hs'
      exact Option.some.inj hs' ▸ hself _ hh.own
    · have hs' := hother id' s' hs' hne
      by_cases hlt' : id' < g.executor.nextStateId
      · obtain ⟨s₁, hs₁, hshape⟩ := hbefore id' hlt' s' hs' hne
        rw [hshape]
        exact hold id' hlt' (fun heq ↦ hne heq.symm) _ (hg.new id' hid' s₁ hs₁)
      · exact hnew id' (Nat.le_of_not_lt hlt') _ (hh.new id' (Nat.le_of_not_lt hlt') s' hs')

theorem Reaches.kept (hg : f.Reaches o N g)
    (hN : ∀ b sh, N b sh → g.GoingAt b → sh.Kept o.program g.bound) (id : StateId) (s : State)
    (hs : g.executor.states[id]? = some s) (hgoing : id ∉ g.executor.removed) :
    s.shape.Kept o.program g.bound := by
  by_cases hlt : id < f.executor.nextStateId
  · obtain ⟨s₀, hs₀, hshape⟩ := hg.old id hlt s hs
    rw [hshape]
    exact (hg.base id s₀ hs₀ fun hmem ↦ hgoing (hg.succeeds.removed_sub id hmem)).mono hg.bound_le
  · exact hN _ _ (hg.new id (Nat.le_of_not_lt hlt) s hs) hgoing

/-! ## Work on the state alone -/

/-- Nothing changed but the state that is worked on, which may have ended. -/
structure Alone (g h : Focus σ) : Prop where
  states_eq : h.executor.states = g.executor.states
  next_eq : h.executor.nextStateId = g.executor.nextStateId
  program_eq : h.executor.program = g.executor.program
  location_eq : h.executor.location = g.executor.location
  constants_eq : h.executor.constants = g.executor.constants
  config_eq : h.executor.config = g.executor.config
  bound_le : g.bound ≤ h.bound
  id_eq : h.state.id = g.state.id
  removed_sub : ∀ id ∈ g.executor.removed, id ∈ h.executor.removed
  removed : ∀ id ∈ h.executor.removed, id ∈ g.executor.removed ∨ id = g.state.id

/-- The state did not move, but may have ended. -/
structure Rests (g h : Focus σ) : Prop extends Alone g h where
  shape_eq : h.state.shape = g.state.shape

/-- The state did not move, and goes on. -/
structure Still (g h : Focus σ) : Prop extends Rests g h where
  removed_eq : h.executor.removed = g.executor.removed

theorem Alone.tidy (hh : g.Alone h) (ht : g.Tidy) : h.Tidy where
  named id s hs := by
    rw [hh.states_eq] at hs
    rw [hh.next_eq]
    exact ht.named id s hs
  own_lt := by
    rw [hh.id_eq, hh.next_eq]
    exact ht.own_lt
  own_none := by
    rw [hh.id_eq, hh.states_eq]
    exact ht.own_none
  removed_lt id hid := by
    rw [hh.next_eq]
    obtain hid | rfl := hh.removed id hid
    · exact ht.removed_lt id hid
    · exact ht.own_lt

theorem Alone.trans {k : Focus σ} (hh : g.Alone h) (hk : h.Alone k) : g.Alone k where
  states_eq := hk.states_eq.trans hh.states_eq
  next_eq := hk.next_eq.trans hh.next_eq
  program_eq := hk.program_eq.trans hh.program_eq
  location_eq := hk.location_eq.trans hh.location_eq
  constants_eq := hk.constants_eq.trans hh.constants_eq
  config_eq := hk.config_eq.trans hh.config_eq
  bound_le := Nat.le_trans hh.bound_le hk.bound_le
  id_eq := hk.id_eq.trans hh.id_eq
  removed_sub id hid := hk.removed_sub id (hh.removed_sub id hid)
  removed id hid := (hk.removed id hid).elim (hh.removed id) fun heq ↦ .inr (heq.trans hh.id_eq)

theorem Rests.trans {k : Focus σ} (hh : g.Rests h) (hk : h.Rests k) : g.Rests k :=
  ⟨hh.toAlone.trans hk.toAlone, hk.shape_eq.trans hh.shape_eq⟩

theorem Still.refl (g : Focus σ) : g.Still g :=
  ⟨⟨⟨rfl, rfl, rfl, rfl, rfl, rfl, Nat.le_refl _, rfl, fun _ ↦ id, fun _ ↦ .inl⟩, rfl⟩, rfl⟩

theorem Still.trans {k : Focus σ} (hh : g.Still h) (hk : h.Still k) : g.Still k :=
  ⟨hh.toRests.trans hk.toRests, hk.removed_eq.trans hh.removed_eq⟩

theorem Alone.goingAt (hh : g.Alone h) {b : Branch} (hb : h.GoingAt b) : g.GoingAt b := by
  cases b with
  | current => exact fun hmem ↦ hb (hh.id_eq ▸ hh.removed_sub _ hmem)
  | forked id => exact fun hmem ↦ hb (hh.removed_sub _ hmem)

theorem Reaches.alone (hg : f.Reaches o N g) (hh : g.Alone h) (hown : N' .current h.state.shape)
    (hnew : ∀ id sh, N (.forked id) sh → N' (.forked id) sh) : f.Reaches o N' h where
  succeeds := by
    refine ⟨hh.tidy hg.succeeds.tidy, hh.id_eq.trans hg.succeeds.id_eq,
      hh.config_eq.trans hg.succeeds.config_eq, hh.next_eq ▸ hg.succeeds.next_le,
      fun id hid ↦ hh.removed_sub id (hg.succeeds.removed_sub id hid), fun id hlt hnone ↦ ?_⟩
    rw [hh.states_eq]
    exact hg.succeeds.old id hlt hnone
  program_eq := hh.program_eq.trans hg.program_eq
  location_eq := hh.location_eq.trans hg.location_eq
  constants_eq := (congrArg Array.size hh.constants_eq).trans hg.constants_eq
  bound_le := Nat.le_trans hg.bound_le hh.bound_le
  base := hg.base
  old id hlt s hs := hg.old id hlt s (hh.states_eq ▸ hs)
  own := hown
  new id hid s hs := hnew id _ (hg.new id hid s (hh.states_eq ▸ hs))

end Focus

/-! ## Places that are still to be worked on -/

variable {o : Origin} {sh sh' : Shape} {todo todo' : List Branch} {f g h : Focus σ}

/-- The states at `todo` have the shape `sh`, and all others that go on are in order. -/
def Focus.Leaves (g : Focus σ) (o : Origin) (sh : Shape) (todo : List Branch) (b : Branch) (sh' : Shape) :
    Prop :=
  if b ∈ todo then sh' = sh ∧ sh.Kept o.program g.bound ∧ sh.Traceable o.program
  else g.GoingAt b → sh'.InOrder o.program g.bound

theorem Focus.Leaves.mono {b : Branch} (hb : g.Leaves o sh todo b sh') (hle : g.bound ≤ h.bound)
    (hgoing : h.GoingAt b → g.GoingAt b) (hmem : b ∈ todo ↔ b ∈ todo') : h.Leaves o sh todo' b sh' := by
  unfold Leaves at hb ⊢
  by_cases hb' : b ∈ todo'
  · rw [if_pos (hmem.2 hb')] at hb
    rw [if_pos hb']
    exact ⟨hb.1, hb.2.1.mono hle, hb.2.2⟩
  · rw [if_neg fun h ↦ hb' (hmem.1 h)] at hb
    rw [if_neg hb']
    exact fun h ↦ (hb (hgoing h)).mono hle

/-- What became of the state of `f` so far. The places at `todo` are different ones, and new. -/
structure Stand (o : Origin) (sh : Shape) (todo : List Branch) (f g : Focus σ) : Prop where
  reaches : f.Reaches o (g.Leaves o sh todo) g
  nodup : todo.Nodup
  fresh : ∀ id, .forked id ∈ todo → f.executor.nextStateId ≤ id ∧ id < g.executor.nextStateId

/-- What became of the state of `f` where work on it failed. The state itself is about to end, unless the
error ends the run. -/
structure Fails (o : Origin) (fatal : Prop) (e : PathError) (f g : Focus σ) : Prop where
  reaches : f.Reaches o (fun b sh ↦ g.GoingAt b → sh.InOrder o.program g.bound ∨
    b = .current ∧ sh.Traceable o.program ∧
      (e.payload.isFatal → sh = o.start ∧ sh.Kept o.program g.bound)) g
  fatal : e.payload.isFatal → fatal

namespace Stand

theorem refl (ht : g.Tidy) (hp : g.executor.program = o.program) (hl : g.executor.location = o.location)
    (hc : g.executor.constants.size = o.program.constants.size)
    (hbase : ∀ id s, g.executor.states[id]? = some s → id ∉ g.executor.removed →
      s.shape.Kept o.program g.bound)
    (hkept : g.state.shape.Kept o.program g.bound) (htrace : g.state.shape.Traceable o.program) :
    Stand o g.state.shape [.current] g g := by
  refine ⟨⟨⟨ht, rfl, rfl, Nat.le_refl _, fun _ ↦ id, fun _ _ ↦ id⟩, hp, hl, hc, Nat.le_refl _, hbase,
    fun id hlt s hs ↦ ⟨s, hs, rfl⟩, ?_, fun id hid s hs ↦ ?_⟩, List.nodup_singleton _, by simp⟩
  · rw [Focus.Leaves, if_pos (by simp)]
    exact ⟨rfl, hkept, htrace⟩
  · exact absurd (ht.named id s hs).2 (Nat.not_lt.2 hid)

theorem own_eq (h : Stand o sh todo f g) (hmem : .current ∈ todo) : g.state.shape = sh ∧
    sh.Kept o.program g.bound ∧ sh.Traceable o.program := by
  have hown := h.reaches.own
  rwa [Focus.Leaves, if_pos hmem] at hown

theorem kept (h : Stand o sh todo f g) (id : StateId) (s : State) (hs : g.executor.states[id]? = some s)
    (hgoing : id ∉ g.executor.removed) : s.shape.Kept o.program g.bound := by
  refine h.reaches.kept (fun b sh' hb hgoing ↦ ?_) id s hs hgoing
  unfold Focus.Leaves at hb
  split at hb
  · exact hb.1 ▸ hb.2.1
  · exact (hb hgoing).kept

theorem perm (h : Stand o sh todo f g) (hperm : todo'.Perm todo) : Stand o sh todo' f g := by
  refine ⟨h.reaches.mono fun b sh' hb ↦ ?_, hperm.nodup_iff.2 h.nodup,
    fun id hid ↦ h.fresh id (hperm.mem_iff.1 hid)⟩
  unfold Focus.Leaves at hb ⊢
  simp only [hperm.mem_iff]
  exact hb

theorem drop (h : Stand o sh todo f g) (hsh : sh.Controlled o.program) (hsub : todo'.Sublist todo) :
    Stand o sh todo' f g := by
  refine ⟨h.reaches.mono fun b sh' hb ↦ ?_, h.nodup.sublist hsub, fun id hid ↦ h.fresh id (hsub.subset hid)⟩
  unfold Focus.Leaves at hb ⊢
  split at hb
  · split
    · exact hb
    · exact fun _ ↦ hb.1 ▸ ⟨hsh, hb.2.1⟩
  · rename_i hnot
    rw [if_neg fun hmem ↦ hnot (hsub.subset hmem)]
    exact hb

theorem done (h : Stand o sh [] f g) (sh' : Shape) : Stand o sh' [] f g :=
  ⟨h.reaches.mono fun b sh'' hb ↦ by simpa [Focus.Leaves] using hb, .nil, by simp⟩

theorem turn (hg : Stand o sh [.current] f g) (hh : g.Alone h)
    (hkept : h.state.shape.Kept o.program h.bound) (htrace : h.state.shape.Traceable o.program) :
    Stand o h.state.shape [.current] f h := by
  refine ⟨hg.reaches.alone hh ?_ fun id sh' hb ↦ ?_, List.nodup_singleton _, by simp⟩
  · rw [Focus.Leaves, if_pos (by simp)]
    exact ⟨rfl, hkept, htrace⟩
  · rw [Focus.Leaves, if_neg (by simp)] at hb ⊢
    intro hgoing
    exact (hb fun hmem ↦ hgoing (hh.removed_sub _ hmem)).mono hh.bound_le

theorem rests (hg : Stand o sh todo f g) (hh : g.Rests h) : Stand o sh todo f h := by
  have hleaves : ∀ b sh', g.Leaves o sh todo b sh' → h.Leaves o sh todo b sh' := fun b sh' hb ↦
    hb.mono hh.bound_le hh.goingAt .rfl
  refine ⟨hg.reaches.alone hh.toAlone ?_ fun id sh' ↦ hleaves _ sh', hg.nodup, fun id hid ↦ ?_⟩
  · rw [hh.shape_eq]
    exact hleaves _ _ hg.reaches.own
  · rw [hh.next_eq]
    exact hg.fresh id hid

theorem finish (hg : Stand o sh [.current] f g) (hh : g.Alone h)
    (hown : h.Going → h.state.shape.InOrder o.program h.bound) (sh' : Shape) : Stand o sh' [] f h := by
  refine ⟨hg.reaches.alone hh ?_ fun id sh'' hb ↦ ?_, .nil, by simp⟩
  · rw [Focus.Leaves, if_neg (by simp)]
    exact hown
  · rw [Focus.Leaves, if_neg (by simp)] at hb ⊢
    intro hgoing
    exact (hb fun hmem ↦ hgoing (hh.removed_sub _ hmem)).mono hh.bound_le

theorem fails {fatal : Prop} {e : PathError} (hg : Stand o sh [.current] f g) (hh : g.Alone h)
    (htrace : h.state.shape.Traceable o.program)
    (hfatal : e.payload.isFatal → fatal ∧ (h.state.shape.InOrder o.program h.bound ∨
      h.state.shape = o.start ∧ h.state.shape.Kept o.program h.bound)) : Fails o fatal e f h := by
  refine ⟨hg.reaches.alone hh (fun _ ↦ ?_) fun id sh' hb hgoing ↦ .inl ?_, fun he ↦ (hfatal he).1⟩
  · by_cases he : e.payload.isFatal = true
    · exact (hfatal he).2.imp_right fun hstart ↦ ⟨rfl, htrace, fun _ ↦ hstart⟩
    · exact .inr ⟨rfl, htrace, fun he' ↦ (he he').elim⟩
  · rw [Focus.Leaves, if_neg (by simp)] at hb
    exact (hb fun hmem ↦ hgoing (hh.removed_sub _ hmem)).mono hh.bound_le

end Stand

/-! ## Parts -/

section

variable {fatal : Prop} {e : PathError} {id : StateId} {s : State} {parts : List Branch}

theorem Focus.GoingAt.of_succeeds (h : f.Succeeds g) {b : Branch} (hb : g.GoingAt b) : f.GoingAt b := by
  cases b with
  | current => exact fun hmem ↦ hb (h.id_eq ▸ h.removed_sub _ hmem)
  | forked id => exact fun hmem ↦ hb (h.removed_sub _ hmem)

namespace Stand

theorem start_current (hg : Stand o sh (.current :: todo) f g) : Stand o sh [.current] g g := by
  obtain ⟨rfl, hkept, htrace⟩ := hg.own_eq (by simp)
  exact refl hg.reaches.succeeds.tidy hg.reaches.program_eq hg.reaches.location_eq hg.reaches.constants_eq
    hg.kept hkept htrace

theorem start_forked (hg : Stand o sh (.forked id :: todo) f g) (hs : g.executor.states[id]? = some s) :
    Stand o sh [.current] ⟨{ g.executor with states := g.executor.states.erase id }, s⟩
      ⟨{ g.executor with states := g.executor.states.erase id }, s⟩ := by
  have hnew := hg.reaches.new id (hg.fresh id (by simp)).1 s hs
  rw [Focus.Leaves, if_pos (by simp)] at hnew
  obtain ⟨rfl, hkept, htrace⟩ := hnew
  refine refl (hg.reaches.succeeds.tidy.visit hs) hg.reaches.program_eq hg.reaches.location_eq
    hg.reaches.constants_eq (fun id' s' hs' hgoing ↦ ?_) hkept htrace
  dsimp only at hs'
  rw [Focus.getElem?_erase_state] at hs'
  split at hs'
  · cases hs'
  · exact hg.kept id' s' hs' hgoing

theorem join_current (hg : Stand o sh (.current :: todo) f g) (hh : Stand o sh parts g h) :
    Stand o sh (parts ++ todo) f h := by
  have hnot := (List.nodup_cons.1 hg.nodup).1
  have hpart : ∀ id, .forked id ∈ parts → id < g.executor.nextStateId → False := fun id hid hlt ↦
    Nat.not_lt.2 (hh.fresh id hid).1 hlt
  have htodo : ∀ id, .forked id ∈ todo → f.executor.nextStateId ≤ id ∧ id < g.executor.nextStateId :=
    fun id hid ↦ hg.fresh id (List.mem_cons_of_mem _ hid)
  refine ⟨hg.reaches.trans hh.reaches (fun id hlt sh' hb ↦ ?_) (fun sh' hb ↦ ?_) fun id hge sh' hb ↦ ?_,
    List.nodup_append'.2 ⟨hh.nodup, (List.nodup_cons.1 hg.nodup).2, fun b hb hb' ↦ ?_⟩, fun id hid ↦ ?_⟩
  · refine hb.mono hh.reaches.bound_le (Focus.GoingAt.of_succeeds hh.reaches.succeeds) ?_
    simpa using fun hid ↦ (hpart id hid hlt).elim
  · refine hb.mono (Nat.le_refl _) (fun hgoing ↦ hgoing) ?_
    simpa using fun hmem ↦ (hnot hmem).elim
  · refine hb.mono (Nat.le_refl _) (fun hgoing ↦ hgoing) ?_
    simpa using fun hmem ↦ absurd (htodo id hmem).2 (Nat.not_lt.2 hge)
  · cases b with
    | current => exact hnot hb'
    | forked id => exact hpart id hb (htodo id hb').2
  · obtain hid | hid := List.mem_append.1 hid
    · exact ⟨Nat.le_trans hg.reaches.succeeds.next_le (hh.fresh id hid).1, (hh.fresh id hid).2⟩
    · exact ⟨(htodo id hid).1, Nat.lt_of_lt_of_le (htodo id hid).2 hh.reaches.succeeds.next_le⟩

theorem join_forked (hg : Stand o sh (.forked id :: todo) f g) (hs : g.executor.states[id]? = some s)
    (hh : Stand o sh parts ⟨{ g.executor with states := g.executor.states.erase id }, s⟩ h) :
    Stand o sh (parts.map (·.relativeTo (.forked id)) ++ todo) f
      ⟨{ h.executor with states := h.executor.states.insert id h.state }, g.state⟩ := by
  obtain ⟨hge, hlt⟩ := hg.fresh id (by simp)
  have hnot := (List.nodup_cons.1 hg.nodup).1
  have hname := (hg.reaches.succeeds.tidy.named id s hs).1
  have hpart : ∀ id', .forked id' ∈ parts → g.executor.nextStateId ≤ id' := fun id' hid' ↦ (hh.fresh id' hid').1
  have htodo : ∀ id', .forked id' ∈ todo → f.executor.nextStateId ≤ id' ∧ id' < g.executor.nextStateId :=
    fun id' hid' ↦ hg.fresh id' (List.mem_cons_of_mem _ hid')
  have hmap : ∀ b, b ∈ parts.map (·.relativeTo (.forked id)) ↔
      b = .forked id ∧ .current ∈ parts ∨ (∃ id', b = .forked id') ∧ b ∈ parts := by
    intro b
    constructor
    · rintro hb
      obtain ⟨b', hb', rfl⟩ := List.mem_map.1 hb
      cases b' with
      | current => exact .inl ⟨rfl, hb'⟩
      | forked id' => exact .inr ⟨⟨id', rfl⟩, hb'⟩
    · rintro (⟨rfl, hb⟩ | ⟨⟨id', rfl⟩, hb⟩)
      · exact List.mem_map.2 ⟨_, hb, rfl⟩
      · exact List.mem_map.2 ⟨_, hb, rfl⟩
  refine ⟨hg.reaches.visit hge hs hh.reaches (fun sh' hb ↦ ?_) (fun id' hlt' hne sh' hb ↦ ?_) (fun sh' hb ↦ ?_)
    fun id' hge' sh' hb ↦ ?_, List.nodup_append'.2 ⟨?_, (List.nodup_cons.1 hg.nodup).2, fun b hb hb' ↦ ?_⟩,
    fun id' hid' ↦ ?_⟩
  · refine hb.mono hh.reaches.bound_le (fun hgoing hmem ↦ hgoing (hh.reaches.succeeds.removed_sub _ hmem)) ?_
    simp [hmap]
  · refine hb.mono hh.reaches.bound_le (fun hgoing hmem ↦ hgoing (hh.reaches.succeeds.removed_sub _ hmem)) ?_
    have hold : .forked id' ∉ parts := fun hmem ↦ Nat.not_lt.2 (hpart id' hmem) hlt'
    simp [hmap, hne, hold]
  · unfold Focus.Leaves at hb ⊢
    have hgone : .forked id ∉ parts := fun hmem ↦ Nat.not_lt.2 (hpart id hmem) hlt
    simp only [List.mem_append, hmap, hnot, hgone, true_and, and_false, or_false]
    have hgoing : Focus.GoingAt ⟨{ h.executor with states := h.executor.states.insert id h.state }, g.state⟩
        (.forked id) ↔ h.Going := by
      rw [Focus.GoingAt, Focus.Going, hh.reaches.succeeds.id_eq, hname]
    rw [hgoing]
    exact hb
  · refine hb.mono (Nat.le_refl _) (fun hgoing ↦ hgoing) ?_
    have hne : id' ≠ id := fun heq ↦ Nat.not_lt.2 hge' (heq ▸ hlt)
    have hold : .forked id' ∉ todo := fun hmem ↦ Nat.not_lt.2 hge' (htodo id' hmem).2
    simp [hmap, hne, hold]
  · refine hh.nodup.map_on fun b hb b' hb' heq ↦ ?_
    cases b with
    | current =>
      cases b' with
      | current => rfl
      | forked id' => exact absurd hlt (Nat.not_lt.2 (Branch.forked.inj heq ▸ hpart id' hb'))
    | forked id' =>
      cases b' with
      | current => exact absurd hlt (Nat.not_lt.2 (Branch.forked.inj heq ▸ hpart id' hb))
      | forked id'' => exact heq
  · obtain ⟨rfl, -⟩ | ⟨⟨id', rfl⟩, hb⟩ := (hmap b).1 hb
    · exact hnot hb'
    · exact Nat.not_lt.2 (hpart id' hb) (htodo id' hb').2
  · obtain hid' | hid' := List.mem_append.1 hid'
    · obtain ⟨heq, -⟩ | ⟨-, hid'⟩ := (hmap _).1 hid'
      · obtain rfl := Branch.forked.inj heq
        exact ⟨hge, Nat.lt_of_lt_of_le hlt hh.reaches.succeeds.next_le⟩
      · exact ⟨Nat.le_trans hg.reaches.succeeds.next_le (hpart id' hid'), (hh.fresh id' hid').2⟩
    · exact ⟨(htodo id' hid').1, Nat.lt_of_lt_of_le (htodo id' hid').2 hh.reaches.succeeds.next_le⟩

theorem absent (hg : Stand o sh (.forked id :: todo) f g) (hnone : g.executor.states[id]? = none) :
    Stand o sh todo f g := by
  refine ⟨{ hg.reaches with own := ?_, new := fun id' hid' s hs ↦ ?_ }, (List.nodup_cons.1 hg.nodup).2,
    fun id' hid' ↦ hg.fresh id' (List.mem_cons_of_mem _ hid')⟩
  · exact hg.reaches.own.mono (Nat.le_refl _) (fun hgoing ↦ hgoing) (by simp)
  · refine (hg.reaches.new id' hid' s hs).mono (Nat.le_refl _) (fun hgoing ↦ hgoing) ?_
    have hne : id' ≠ id := by
      rintro rfl
      exact nomatch hs.symm.trans hnone
    simp [hne]

end Stand

theorem Focus.Leaves.inOrder {b : Branch} (hb : g.Leaves o sh todo b sh') (hsh : sh.Controlled o.program)
    (hgoing : g.GoingAt b) : sh'.InOrder o.program g.bound := by
  unfold Leaves at hb
  split at hb
  · exact hb.1 ▸ ⟨hsh, hb.2.1⟩
  · exact hb hgoing

namespace Fails

theorem join_current (hg : Stand o sh (.current :: todo) f g) (hh : Fails o fatal e g h)
    (hsh : sh.Controlled o.program) : Fails o fatal e f h := by
  refine ⟨hg.reaches.trans hh.reaches (fun id _ sh' hb hgoing ↦ .inl ?_) (fun _ hb ↦ hb) fun _ _ _ hb ↦ hb,
    hh.fatal⟩
  exact (hb.inOrder hsh (Focus.GoingAt.of_succeeds hh.reaches.succeeds hgoing)).mono hh.reaches.bound_le

theorem join_forked (hg : Stand o sh (.forked id :: todo) f g) (hs : g.executor.states[id]? = some s)
    (hh : Fails o fatal e ⟨{ g.executor with states := g.executor.states.erase id }, s⟩ h)
    (hsh : sh.Controlled o.program) (hstart : o.start.Controlled o.program) (he : e.payload.isFatal = true) :
    Fails o fatal e f ⟨{ h.executor with states := h.executor.states.insert id h.state }, g.state⟩ := by
  have hname := (hg.reaches.succeeds.tidy.named id s hs).1
  refine ⟨hg.reaches.visit (hg.fresh id (by simp)).1 hs hh.reaches (fun sh' hb hgoing ↦ .inl ?_)
    (fun id' _ _ sh' hb hgoing ↦ .inl ?_) (fun sh' hb hgoing ↦ .inl ?_) fun id' _ sh' hb hgoing ↦ hb hgoing,
    hh.fatal⟩
  · exact (hb.inOrder hsh fun hmem ↦ hgoing (hh.reaches.succeeds.removed_sub _ hmem)).mono hh.reaches.bound_le
  · exact (hb.inOrder hsh fun hmem ↦ hgoing (hh.reaches.succeeds.removed_sub _ hmem)).mono hh.reaches.bound_le
  · have hgoing : h.GoingAt .current := by
      rw [Focus.GoingAt, Focus.Going, hh.reaches.succeeds.id_eq, hname]
      exact hgoing
    obtain hsh' | ⟨-, -, hsh'⟩ := hb hgoing
    · exact hsh'
    · obtain ⟨rfl, hkept⟩ := hsh' he
      exact ⟨hstart, hkept⟩

theorem finish (hg : Fails o fatal e f g) (hh : g.Alone h) (hend : ¬h.Going) (sh : Shape) :
    Stand o sh [] f h := by
  refine ⟨hg.reaches.alone hh ?_ fun id sh' hb ↦ ?_, .nil, by simp⟩
  · rw [Focus.Leaves, if_neg (by simp)]
    exact fun hgoing ↦ (hend hgoing).elim
  · rw [Focus.Leaves, if_neg (by simp)]
    intro hgoing
    obtain hsh' | ⟨hb, -⟩ := hb fun hmem ↦ hgoing (hh.removed_sub _ hmem)
    · exact hsh'.mono hh.bound_le
    · cases hb

end Fails

end

end Symex
