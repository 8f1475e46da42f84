import Mathlib.Data.List.Forall2
import Symex.Proofs.Lineage.Accounts
import Symex.Proofs.Lineage.Branches

namespace Symex

variable {σ α β : Type}

/-- Contents of more inputs may have been given to the seed, in place of those that it had. -/
def Seed.Patched (s t : Seed) : Prop := ∃ bindings : List (NamedArray × ByteArray),
  t = bindings.foldl (fun seed (array, bytes) ↦ seed.bind array.name bytes) s

namespace Seed.Patched

variable {s t u : Seed}

theorem refl (s : Seed) : s.Patched s := ⟨[], rfl⟩

theorem trans (h : s.Patched t) (h' : t.Patched u) : s.Patched u := by
  obtain ⟨l, rfl⟩ := h
  obtain ⟨l', rfl⟩ := h'
  exact ⟨l ++ l', (List.foldl_append ..).symm⟩

end Seed.Patched

def Executor.seedsOf (e : Executor σ) (id : StateId) : List Seed := (e.seeds[id]?).getD []

/-- The name of the state at a place, as seen from the state `own`. -/
def Branch.name (own : StateId) : Branch → StateId
  | current => own
  | forked id => id

namespace Focus

variable {f g h : Focus σ} {n m : Nat} {ids ids' : List StateId}

/-! ## Work that leaves seeds where they are -/

/-- Seeds stay with their states, only those of `ids` may be patched, and `n` new names were given. -/
structure Tends (n : Nat) (ids : List StateId) (f g : Focus σ) : Prop where
  id_eq : g.state.id = f.state.id
  next_eq : g.executor.nextStateId = f.executor.nextStateId + n
  named : f.executor.Named → g.executor.Named
  seeds : ∀ id, List.Forall₂ Seed.Patched (f.executor.seedsOf id) (g.executor.seedsOf id)
  others : ∀ id : StateId, id ∉ ids → g.executor.seeds[id]? = f.executor.seeds[id]?

namespace Tends

theorem trans (hf : f.Tends n ids g) (hg : g.Tends m ids h) : f.Tends (n + m) ids h where
  id_eq := hg.id_eq.trans hf.id_eq
  next_eq := by rw [hg.next_eq, hf.next_eq, Nat.add_assoc]
  named hnamed := hg.named (hf.named hnamed)
  seeds id := List.forall₂_iff_get.2 (by
    obtain ⟨hlength, hf⟩ := List.forall₂_iff_get.1 (hf.seeds id)
    obtain ⟨hlength', hg⟩ := List.forall₂_iff_get.1 (hg.seeds id)
    exact ⟨hlength.trans hlength', fun i h₁ h₂ ↦ (hf i h₁ (hlength ▸ h₁)).trans (hg i (hlength ▸ h₁) h₂)⟩)
  others id hid := (hg.others id hid).trans (hf.others id hid)

theorem mono (h : f.Tends n ids g) (hsub : ids ⊆ ids') : f.Tends n ids' g :=
  { h with others := fun id hid ↦ h.others id fun hmem ↦ hid (hsub hmem) }

theorem of_seeds_eq (hid : g.state.id = f.state.id) (hnext : g.executor.nextStateId = f.executor.nextStateId + n)
    (hnamed : f.executor.Named → g.executor.Named) (hseeds : g.executor.seeds = f.executor.seeds) :
    f.Tends n [] g where
  id_eq := hid
  next_eq := hnext
  named := hnamed
  seeds id := by
    rw [Executor.seedsOf, Executor.seedsOf, hseeds]
    exact List.forall₂_same.2 fun s _ ↦ .refl s
  others id _ := by rw [hseeds]

theorem refl (f : Focus σ) : f.Tends 0 [] f := of_seeds_eq rfl rfl id rfl

theorem of_quiet (he : f.executor.Quiet g.executor) (hid : g.state.id = f.state.id) : f.Tends 0 [] g :=
  of_seeds_eq hid he.next_eq (fun h ↦ by rwa [Executor.Named, he.states_eq]) he.seeds_eq

theorem of_state {s : State} (hid : s.id = f.state.id) : f.Tends 0 [] { f with state := s } :=
  of_quiet (.refl _) hid

theorem recorded (f : Focus σ) (side internal : Bool) : f.Tends 0 [] (f.recorded side internal) := by
  cases internal with
  | true => exact .refl f
  | false => exact .of_state (f := f) (s := { f.state with path := f.state.path ++ [side] }) rfl

theorem insert (f : Focus σ) (s : State) :
    f.Tends 0 [] ⟨{ f.executor with states := f.executor.states.insert s.id s }, f.state⟩ :=
  of_seeds_eq rfl rfl (writes_insert f s).names rfl

theorem visit {id : StateId} {s : State} (hs : f.executor.states[id]? = some s)
    (h : Tends n ids ⟨{ f.executor with states := f.executor.states.erase id }, s⟩ g) :
    f.Tends n ids ⟨{ g.executor with states := g.executor.states.insert id g.state }, f.state⟩ where
  id_eq := rfl
  next_eq := h.next_eq
  named hnamed id' t ht := by
    have herased : Executor.Named { f.executor with states := f.executor.states.erase id } := fun i t ht ↦ by
      dsimp only at ht
      rw [getElem?_erase_state] at ht
      split at ht
      · cases ht
      · exact hnamed i t ht
    dsimp only at ht
    rw [getElem?_insert_state] at ht
    split at ht
    · rename_i heq
      exact Option.some.inj ht ▸ h.id_eq.trans ((hnamed id s hs).trans heq)
    · exact h.named herased id' t ht
  seeds := h.seeds
  others := h.others

theorem setSeeds {id : StateId} {seeds : List Seed} (h : List.Forall₂ Seed.Patched (f.executor.seedsOf id) seeds) :
    f.Tends 0 [id] { f with executor := { f.executor with seeds := f.executor.seeds.insert id seeds } } where
  id_eq := rfl
  next_eq := rfl
  named hnamed := hnamed
  seeds id' := by
    simp only [Executor.seedsOf, getElem?_insert_state]
    split
    · exact ‹id = id'› ▸ h
    · exact List.forall₂_same.2 fun seed _ ↦ .refl seed
  others id' hid := by
    rw [List.mem_singleton] at hid
    simp only [getElem?_insert_state, if_neg (Ne.symm hid)]

end Tends

end Focus

namespace Exec

variable {x : Exec σ α} {k : α → Exec σ β} {focus : Focus σ} {condition : Expr} {internal : Bool}
  {ids : List StateId}

/-- However it ends, the work leaves seeds as they are and gives no names. -/
def Spares (x : Exec σ α) : Prop := ∀ focus, x.Ends (fun _ ↦ True) focus fun _ f ↦ focus.Tends 0 [] f

theorem spares_pure (a : α) : (pure a : Exec σ α).Spares := fun focus ↦ ends_pure (.refl focus)

theorem spares_bind (hx : x.Spares) (hk : ∀ a, (k a).Spares) : (x >>= k).Spares := fun focus ↦
  ends_bind (hx focus) (fun a f h ↦ (hk a f).mono fun _ _ h' ↦ h.trans h') fun _ _ h ↦ h

theorem spares_fail (e : ExecError) : (fail e : Exec σ α).Spares := fun focus ↦ ends_fail (.refl focus)

theorem spares_draw (f : Rng → α × Rng) : (draw f : Exec σ α).Spares := fun _ ↦
  ends_draw (.of_quiet ⟨⟨rfl, rfl, rfl, rfl, rfl, rfl, id⟩, rfl, rfl, rfl, rfl⟩ rfl)

theorem spares_query (question : ConstraintSet → Ask σ α) : (query question).Spares := by
  refine spares_bind (fun focus ↦ ends_ask_any (Checked.ends_true_iff.2 fun _ _ ↦
    .of_quiet ⟨⟨rfl, rfl, rfl, rfl, rfl, rfl, id⟩, rfl, rfl, rfl, rfl⟩ rfl)) fun r ↦ ?_
  split
  · exact spares_pure _
  · exact spares_fail _

theorem spares_terminateWith (termination : Termination) (details : Option String) :
    (terminateWith termination details : Exec σ Unit).Spares := fun focus ↦
  (ends_terminateWith termination details).mono fun _ _ h ↦ by
    obtain ⟨-, rfl | ⟨-, _, _, _, -, -, rfl⟩⟩ := h
    · exact .refl _
    · exact .of_seeds_eq rfl rfl id rfl

theorem spares_settle (error : PathError) : (settle error : Exec σ Unit).Spares := by
  unfold settle
  split
  · exact fun focus ↦ ends_throw (.refl focus)
  · split
    · exact spares_terminateWith _ _
    · refine fun focus ↦ (ends_terminateOnError_any error none).mono fun _ _ h ↦ ?_
      cases h.2 with
      | again => exact .refl _
      | reported _ _ _ _ _ => exact .of_seeds_eq rfl rfl id rfl
      | repeated _ _ _ => exact .of_seeds_eq rfl rfl id rfl

/-! ## Work on other states -/

theorem ends_settling_tends (hx : x.Ends (fun _ ↦ True) focus fun _ f ↦ focus.Tends 0 ids f) :
    (settling x).Ends (fun _ ↦ True) focus fun _ f ↦ focus.Tends 0 ids f :=
  ends_settling (fun _ ↦ (Focus.Tends.refl focus).mono (List.nil_subset _)) fun _ ↦ hx.mono fun r f h ↦ by
    cases r with
    | ok _ => exact h
    | error e =>
      refine (spares_settle e f).mono fun r f' h' ↦ ?_
      cases r <;> exact h.trans (h'.mono (List.nil_subset _))

theorem ends_onBranch_tends {b : Branch} (hnamed : focus.executor.Named)
    (hx : ∀ f : Focus σ, f.state.id = b.name focus.state.id → x.Ends (fun _ ↦ True) f fun _ g ↦ f.Tends 0 ids g) :
    (onBranch b x).Ends (fun _ ↦ True) focus fun _ f ↦ focus.Tends 0 ids f := by
  cases b with
  | current => exact ends_settling_tends (hx focus rfl)
  | forked id =>
    refine ends_bind (P := fun _ f ↦ focus.Tends 0 ids f) (ends_visit (fun _ ↦ ?_) fun s hs ↦ ?_)
      (fun _ _ h ↦ ends_pure h) fun _ _ h ↦ h
    · exact (Focus.Tends.refl focus).mono (List.nil_subset _)
    · exact (ends_settling_tends (hx ⟨_, s⟩ (hnamed id s hs))).mono fun _ _ h ↦ .visit hs h

theorem ends_onBranch_spared {b : Branch} (hx : x.Spares) :
    (onBranch b x).Ends (fun _ ↦ True) focus fun _ f ↦ focus.Tends 0 [] f := by
  cases b with
  | current => exact ends_settling_tends (hx focus)
  | forked id =>
    refine ends_bind (P := fun _ f ↦ focus.Tends 0 [] f) (ends_visit (fun _ ↦ .refl focus) fun s hs ↦ ?_)
      (fun _ _ h ↦ ends_pure h) fun _ _ h ↦ h
    exact (ends_settling_tends (hx _)).mono fun _ _ h ↦ .visit hs h

/-! ## Constraints -/

theorem ends_addConstraint_tends (condition : Expr) (focus : Focus σ) :
    (addConstraint condition).Ends (fun _ ↦ True) focus fun _ f ↦ focus.Tends 0 [focus.state.id] f := by
  refine ends_bind (P := fun _ f ↦ focus.Tends 0 [] f) (ends_updateState (Checked.ends_true_iff.2 fun s hs ↦ ?_))
    (fun _ f h ↦ ?_) fun _ _ h ↦ h.mono (List.nil_subset _)
  · obtain ⟨c, -, hs⟩ := Checked.bind_eq_ok.1 hs
    obtain rfl := Checked.pure_eq_ok.1 hs
    exact .of_state rfl
  have hkept : focus.Tends 0 [focus.state.id] f := h.mono (List.nil_subset _)
  refine ends_bind_ok rfl ?_
  split
  · rename_i seeds hseeds
    split
    · exact ends_pure hkept
    · refine ends_bind_ok rfl (ends_bind (spares_query _ f) (fun values g hg ↦ ?_) fun _ _ hg ↦
        hkept.trans (hg.mono (List.nil_subset _)))
      have hkept : focus.Tends 0 [focus.state.id] g := hkept.trans (hg.mono (List.nil_subset _))
      split
      · refine ends_modifyExecutor (hkept.trans (m := 0) ?_)
        rw [← h.id_eq]
        refine .setSeeds ?_
        have hold : g.executor.seedsOf f.state.id = seeds := by
          rw [Executor.seedsOf, hg.others _ List.not_mem_nil, hseeds, Option.getD_some]
        rw [hold, List.forall₂_map_right_iff]
        refine List.forall₂_same.2 fun seed _ ↦ ?_
        split
        · exact .refl seed
        · exact ⟨_, rfl⟩
      · exact ends_pure hkept
  · exact ends_pure hkept

theorem ends_takeSide_spared {side : Bool}
    (h : ∀ seeds, focus.executor.seeds[focus.state.id]? = some seeds →
      ∀ seed ∈ seeds, seed.satisfies (if side then condition else condition.isZero)) :
    (takeSide condition side).Ends (fun _ ↦ True) focus fun _ f ↦ focus.Tends 0 [] f := by
  refine ends_bind (ends_addConstraint_led h) (fun _ f h ↦ ?_) fun _ _ h ↦ (nomatch h.1)
  obtain ⟨-, s, hid, rfl⟩ := h
  exact ends_pure (.of_state hid)

/-! ## Forks -/

theorem ends_restrict_spared {validity : Validity} (hfit : focus.executor.SeedsFit) (hcond : condition.WellFormed) :
    (restrict condition internal validity).Ends (fun _ ↦ True) focus fun _ f ↦ focus.Tends 0 [] f := by
  have hquiet : ∀ {side : Bool} {f : Focus σ}, focus.executor.seeds[focus.state.id]? = none → focus.Tends 0 [] f →
      (takeSide condition side).Ends (fun _ ↦ True) f fun _ g ↦ focus.Tends 0 [] g := by
    intro side f hnone hf
    refine (ends_takeSide_spared fun seeds hseeds ↦ ?_).mono fun _ _ h ↦ hf.trans h
    rw [hf.id_eq, hf.others _ List.not_mem_nil, hnone] at hseeds
    cases hseeds
  refine ends_bind_ok rfl (ends_bind_ok rfl ?_)
  split
  · rename_i hreplay
    have hnone : focus.executor.seeds[focus.state.id]? = none := by
      simp only [Bool.and_eq_true, Option.isNone_iff_eq_none] at hreplay
      exact hreplay.1.2
    refine ends_bind_ok rfl ?_
    split
    · exact ends_pure (.refl focus)
    · exact spares_fail _ focus
    · rename_i side rest _
      have hset : focus.Tends 0 [] (focus.withReplayPath rest) := .of_seeds_eq rfl rfl (fun h ↦ h) rfl
      refine ends_bind_ok rfl ?_
      split
      · exact ends_fail hset
      · exact ends_fail hset
      · exact hquiet hnone hset
      · exact ends_pure hset
  · split
    · split
      · rename_i seeds hseeds
        refine ends_bind_ok rfl ?_
        split
        · unfold followSeeds
          dsimp only
          split
          · -- all the seeds lead to one side
            rename_i hsides
            refine ends_takeSide_spared fun seeds' hseeds' seed hseed ↦ ?_
            obtain rfl : seeds = seeds' := Option.some.inj (hseeds.symm.trans hseeds')
            cases hany : seeds.any (·.satisfies condition) with
            | true =>
              have hall : seeds.any (!·.satisfies condition) = false := by simpa [hany] using hsides
              simpa using List.any_eq_false.1 hall seed hseed
            | false =>
              exact Seed.satisfies_isZero ((hfit _ seeds hseeds).2 seed hseed) hcond
                (List.any_eq_false.1 hany seed hseed)
          · exact ends_pure (.refl focus)
        · exact ends_pure (.refl focus)
      · rename_i hnone
        obtain ⟨b, hb, -⟩ := run_forkInhibited focus
        refine ends_bind_ok hb ?_
        cases b with
        | true =>
          exact ends_bind (spares_draw Rng.coin focus) (fun _ f h ↦ hquiet hnone h) fun _ _ h ↦ h
        | false => exact ends_pure (.refl focus)
    · exact ends_pure (.refl focus)

theorem ends_bothSides_spared {child : State} {g : Focus σ} (internal : Bool) (hg : focus.Divided condition child g) :
    (do
      recordSide true internal
      addConstraint condition
      let (result, child) ← within child do
        recordSide false internal
        addConstraint condition.isZero
      MonadExcept.ofExcept result
      let maxDepth := (← executor).config.maxDepth
      if maxDepth ≠ 0 ∧ maxDepth ≤ (← state).depth then
        terminateEarly "max-depth exceeded"
        insertState child
        let _ ← visit child.id (terminateEarly "max-depth exceeded")
        return (none, none)
      insertState child
      return (some .current, some (.forked child.id)) : Exec σ Sides).Ends (fun _ ↦ True) g
        fun _ f ↦ g.Tends 0 [] f := by
  have hrecorded : ∀ (f : Focus σ) (side : Bool), (f.recorded side internal).executor = f.executor ∧
      (f.recorded side internal).state.id = f.state.id := by
    intro f side
    cases internal <;> exact ⟨rfl, rfl⟩
  refine ends_bind_ok (run_recordSide true internal) ?_
  obtain ⟨hexecutor, hid⟩ := hrecorded g true
  refine ends_bind (ends_addConstraint_led ?_) ?_ fun _ _ h ↦ (nomatch h.1)
  · rw [hexecutor, hid]
    exact hg.holds
  rintro _ _ ⟨-, s, hs, rfl⟩
  refine ends_bind (P := fun r f ↦ ∃ copy : State, r = .ok (.ok (), copy) ∧ copy.id = child.id ∧
    f = { g with state := s }) (ends_within (ends_bind_ok (run_recordSide false internal) ?_)) ?_ ?_
  · obtain ⟨hexecutor', hid'⟩ := hrecorded { (g.recorded true internal) with state := child } false
    refine (ends_addConstraint_led ?_).mono ?_
    · rw [hexecutor', hid']
      exact hexecutor ▸ hg.fails
    · rintro _ _ ⟨rfl, copy, hcopy, rfl⟩
      exact ⟨copy, rfl, hcopy.trans hid', by rw [hexecutor', hexecutor]⟩
  · rintro ⟨result, copy⟩ _ ⟨_, ⟨⟩, -, rfl⟩
    have hstate : g.Tends 0 [] { g with state := s } := .of_state (hs.trans hid)
    refine ends_bind_ok rfl (ends_bind_ok rfl (ends_bind_ok rfl ?_))
    split
    · refine ends_bind (spares_terminateWith _ none _) (fun _ f h ↦ ends_bind_ok rfl ?_) fun _ _ h ↦ hstate.trans h
      have hended := (hstate.trans h).trans (.insert f copy)
      refine ends_bind (P := fun _ f' ↦ g.Tends 0 [] f') (ends_visit (fun _ ↦ hended) fun s hs ↦ ?_)
        (fun _ _ h ↦ ends_pure h) fun _ _ h ↦ h
      exact (spares_terminateWith _ none _).mono fun _ _ h ↦ hended.trans (.visit hs h)
    · exact ends_bind_ok rfl (ends_pure (hstate.trans (.insert _ copy)))
  · rintro _ _ ⟨_, ⟨⟩, -⟩

end Exec

namespace Focus

variable {f g h : Focus σ} {condition : Expr} {child : State} {seeds : List Seed}

/-- The names of what became of the state: its own, and those that were given since. -/
def names (f g : Focus σ) : List StateId :=
  f.state.id :: List.range' f.executor.nextStateId (g.executor.nextStateId - f.executor.nextStateId)

/-- Each seed of the state is now with one of the states that it became, in the way that `R` says, and seeds of
others are where they were. -/
structure Hands (R : Seed → Seed → Prop) (f g : Focus σ) : Prop where
  dealt : ∃ seeds, seeds.Perm (f.executor.seedsOf f.state.id) ∧
    List.Forall₂ R seeds ((f.names g).flatMap g.executor.seedsOf)
  others : ∀ id : StateId, id ∉ f.names g → g.executor.seeds[id]? = f.executor.seeds[id]?

namespace Tends

variable {R : Seed → Seed → Prop} {n : Nat}

theorem seedsOf_eq (h : f.Tends n [] g) (id : StateId) : g.executor.seedsOf id = f.executor.seedsOf id := by
  rw [Executor.seedsOf, h.others id List.not_mem_nil, Executor.seedsOf]

theorem fit (h : f.Tends n [] g) (hfit : f.executor.SeedsFit) : g.executor.SeedsFit := fun id seeds hseeds ↦ by
  rw [h.others id List.not_mem_nil] at hseeds
  rw [h.next_eq]
  exact ⟨Nat.lt_add_right _ (hfit id seeds hseeds).1, (hfit id seeds hseeds).2⟩

theorem names_eq (h : f.Tends 0 [] g) (k : Focus σ) : g.names k = f.names k := by
  simp only [names, h.id_eq, h.next_eq, Nat.add_zero]

theorem hands (h : f.Tends 0 [] g) (hR : ∀ s, R s s) : f.Hands R g where
  dealt := by
    refine ⟨f.executor.seedsOf f.state.id, .refl _, ?_⟩
    have hnames : f.names g = [f.state.id] := by simp [names, h.next_eq]
    rw [hnames, List.flatMap_singleton, h.seedsOf_eq]
    exact List.forall₂_same.2 fun s _ ↦ hR s
  others id _ := h.others id List.not_mem_nil

end Tends

theorem Hands.after {R : Seed → Seed → Prop} (hg : g.Hands R h) (hf : f.Tends 0 [] g) : f.Hands R h where
  dealt := by
    obtain ⟨seeds, hperm, hall⟩ := hg.dealt
    refine ⟨seeds, ?_, hf.names_eq h ▸ hall⟩
    rwa [hf.id_eq, hf.seedsOf_eq] at hperm
  others id hid := (hg.others id (hf.names_eq h ▸ hid)).trans (hf.others id List.not_mem_nil)

/-- The copy has its name, and the state has the seeds `led` and the copy the seeds `left`. -/
structure Parted (f : Focus σ) (condition : Expr) (child : State) (led left : List Seed) (g : Focus σ) : Prop
    extends f.Divided condition child g where
  led_eq : g.executor.seedsOf f.state.id = led
  left_eq : g.executor.seedsOf child.id = left
  others : ∀ id : StateId, id ≠ f.state.id → id ≠ child.id → g.executor.seeds[id]? = f.executor.seeds[id]?

theorem Parted.setOwn (h : f.Parted condition child [] [] g) (hlt : f.state.id < f.executor.nextStateId)
    (hfree : ∀ seed ∈ seeds, seed.assignment.free) (hseeds : ∀ seed ∈ seeds, seed.satisfies condition) :
    f.Parted condition child seeds []
      { g with executor := { g.executor with seeds := g.executor.seeds.insert g.state.id seeds } } := by
  have hne : f.state.id ≠ child.id := h.id_eq ▸ Nat.ne_of_lt hlt
  refine ⟨h.toDivided.setOwn hlt hfree hseeds, ?_, ?_, fun id hid hid' ↦ ?_⟩
  · simp [Executor.seedsOf, h.writes.id_eq]
  · simpa [Executor.seedsOf, h.writes.id_eq, getElem?_insert_state, hne] using h.left_eq
  · simpa [h.writes.id_eq, getElem?_insert_state, hid.symm] using h.others id hid hid'

theorem Parted.setCopy {led : List Seed} (h : f.Parted condition child led [] g)
    (hlt : f.state.id < f.executor.nextStateId) (hfree : ∀ seed ∈ seeds, seed.assignment.free)
    (hseeds : ∀ seed ∈ seeds, seed.satisfies condition.isZero) :
    f.Parted condition child led seeds
      { g with executor := { g.executor with seeds := g.executor.seeds.insert child.id seeds } } := by
  have hne : child.id ≠ f.state.id := h.id_eq ▸ Nat.ne_of_gt hlt
  refine ⟨h.toDivided.setCopy hlt hfree hseeds, ?_, ?_, fun id hid hid' ↦ ?_⟩
  · simpa [Executor.seedsOf, getElem?_insert_state, hne] using h.led_eq
  · simp [Executor.seedsOf]
  · simpa [getElem?_insert_state, hid'.symm] using h.others id hid hid'

theorem Parted.hands {led left : List Seed} (hg : f.Parted condition child led left g) (hh : g.Tends 0 [] h)
    (hperm : (led ++ left).Perm (f.executor.seedsOf f.state.id)) : f.Hands Eq h := by
  have hnames : f.names h = [f.state.id, child.id] := by
    rw [names, hh.next_eq, hg.writes.next_eq, hg.id_eq]
    simp
  refine ⟨⟨led ++ left, hperm, ?_⟩, fun id hid ↦ ?_⟩
  · simp [hnames, hh.seedsOf_eq, hg.led_eq, hg.left_eq]
  · rw [hnames, List.mem_cons, List.mem_singleton, not_or] at hid
    exact (hh.others id List.not_mem_nil).trans (hg.others id hid.1 hid.2)

end Focus

namespace Exec

variable {focus : Focus σ} {condition : Expr} {internal : Bool}

theorem ends_split_hands (hfit : focus.executor.SeedsFit) (hlt : focus.state.id < focus.executor.nextStateId)
    (hcond : condition.WellFormed) :
    (split condition internal).Ends (fun _ ↦ True) focus fun _ f ↦ focus.Hands Eq f := by
  refine ends_bind_ok (f := focus.afterForks 1) rfl (ends_bind ends_spawn_pending ?_ fun _ _ h ↦ (nomatch h))
  rintro child f ⟨_, ⟨⟩, hspawned, hsame⟩
  have hpending : focus.Pending child f := ⟨hspawned.id_eq, (focus.writes_afterForks 1).trans hspawned.writes⟩
  have hnone : f.executor.seeds[child.id]? = none := by
    rw [hsame, hpending.id_eq, Option.eq_none_iff_forall_ne_some]
    exact fun seeds h ↦ Nat.lt_irrefl _ (hfit _ seeds h).1
  have hfinish : ∀ {led left : List Seed} {g : Focus σ}, focus.Parted condition child led left g →
      (led ++ left).Perm (focus.executor.seedsOf focus.state.id) →
        Ends (fun _ ↦ True) _ g fun _ f ↦ focus.Hands Eq f := fun hg hperm ↦
    (ends_bothSides_spared internal hg.toDivided).mono fun _ _ h ↦ hg.hands h hperm
  refine ends_bind_ok rfl (ends_bind_ok rfl ?_)
  dsimp only
  split
  · rename_i seeds hown
    have hseeds : focus.executor.seeds[focus.state.id]? = some seeds := by
      rw [← hown, hsame, hpending.writes.id_eq]
      rfl
    have hfree := (hfit _ seeds hseeds).2
    generalize hdivided : seeds.partition (·.satisfies condition) = divided
    obtain ⟨led, left⟩ := divided
    rw [List.partition_eq_filter_filter, Prod.mk.injEq] at hdivided
    obtain ⟨hled, hleft⟩ := hdivided
    have hperm : (led ++ left).Perm (focus.executor.seedsOf focus.state.id) := by
      rw [Executor.seedsOf, hseeds, ← hled, ← hleft]
      exact List.filter_append_perm _ seeds
    have hholds : ∀ seed ∈ led, seed.assignment.free ∧ seed.satisfies condition := by
      rintro seed hseed
      rw [← hled, List.mem_filter] at hseed
      exact ⟨hfree seed hseed.1, hseed.2⟩
    have hfails : ∀ seed ∈ left, seed.assignment.free ∧ seed.satisfies condition.isZero := by
      rintro seed hseed
      rw [← hleft, List.mem_filter] at hseed
      exact ⟨hfree seed hseed.1, Seed.satisfies_isZero (hfree seed hseed.1) hcond (by simpa using hseed.2)⟩
    have hdropped : focus.Parted condition child [] []
        { f with executor := { f.executor with seeds := f.executor.seeds.erase f.state.id } } := by
      refine ⟨(Focus.Pending.divided ⟨hpending.id_eq, hpending.writes.dropSeeds _⟩ ?_ ?_), ?_, ?_,
        fun id hid _ ↦ ?_⟩
      · simp
      · simp [Focus.getElem?_erase_state, hnone]
      · simp [Executor.seedsOf, hpending.writes.id_eq]
      · simp [Executor.seedsOf, Focus.getElem?_erase_state, hnone]
      · simp only [hpending.writes.id_eq, Focus.getElem?_erase_state, if_neg hid.symm, hsame]
        rfl
    refine ends_bind_ok rfl ?_
    dsimp only
    split
    · obtain rfl : led = [] := by simpa using ‹led.isEmpty = true›
      split
      · obtain rfl : left = [] := by simpa using ‹left.isEmpty = true›
        exact hfinish hdropped hperm
      · exact ends_bind_ok rfl (hfinish (hdropped.setCopy hlt (fun s hs ↦ (hfails s hs).1)
          fun s hs ↦ (hfails s hs).2) hperm)
    · have hset := hdropped.setOwn hlt (fun s hs ↦ (hholds s hs).1) fun s hs ↦ (hholds s hs).2
      refine ends_bind_ok rfl ?_
      split
      · obtain rfl : left = [] := by simpa using ‹left.isEmpty = true›
        exact hfinish hset hperm
      · exact ends_bind_ok rfl (hfinish (hset.setCopy hlt (fun s hs ↦ (hfails s hs).1)
          fun s hs ↦ (hfails s hs).2) hperm)
  · rename_i hown
    have hown := Option.eq_none_iff_forall_ne_some.2 hown
    refine @hfinish [] [] f ⟨hpending.divided hown hnone, ?_, ?_, fun id _ _ ↦ ?_⟩ ?_
    · rw [Executor.seedsOf, ← hpending.writes.id_eq, hown, Option.getD_none]
    · rw [Executor.seedsOf, hnone, Option.getD_none]
    · rw [hsame]
      rfl
    · have hnone : focus.executor.seeds[focus.state.id]? = none := by
        rw [← hown, hsame, hpending.writes.id_eq]
        rfl
      rw [Executor.seedsOf, hnone]
      exact .refl _

theorem ends_fork_hands (hfit : focus.executor.SeedsFit) (hlt : focus.state.id < focus.executor.nextStateId)
    (hcond : condition.WellFormed) :
    (fork condition internal).Ends (fun _ ↦ True) focus fun r f ↦ ∀ sides, r = .ok sides → focus.Hands Eq f := by
  refine ends_bind (spares_query _ focus) (fun v f hf ↦ ?_) fun _ _ _ ↦ nofun
  refine ends_bind (ends_restrict_spared (hf.fit hfit) hcond) (fun v g hg ↦ ?_) fun _ _ _ ↦ nofun
  have hg := hf.trans hg
  have hside : ∀ (side : Bool) (sides : Sides), (do
      recordSide side internal
      return sides : Exec σ Sides).Ends (fun _ ↦ True) g fun _ f ↦ focus.Hands Eq f := fun side sides ↦
    ends_bind_ok (run_recordSide side internal)
      (ends_pure ((hg.trans (.recorded g side internal)).hands fun _ ↦ rfl))
  cases v with
  | always => exact (hside true _).mono fun _ _ h _ _ ↦ h
  | never => exact (hside false _).mono fun _ _ h _ _ ↦ h
  | sometimes =>
    refine (ends_split_hands (hg.fit hfit) ?_ hcond).mono fun _ _ h _ _ ↦ h.after hg
    rw [hg.id_eq, hg.next_eq]
    exact hlt

end Exec

end Symex
