import Symex.Proofs.Lineage.Forking

namespace Symex

open Checked

variable {σ α β : Type} {I : Trust} {twins : Prop}

/-! ## Indices -/

namespace Rng

theorem next32_lt (r : Rng) : r.next32.1 < pow2 32 := by
  have h32 : pow2 32 = 2 ^ 32 := rfl
  simp only [next32, h32]
  generalize Vector.get _ _ = word
  exact word.toNat_lt

theorem next64_lt (r : Rng) : r.next64.1 < pow2 64 := by
  have hlow := r.next32_lt
  have hhigh := r.next32.2.next32_lt
  have h32 : pow2 32 = 4294967296 := rfl
  have h64 : pow2 64 = 18446744073709551616 := rfl
  simp only [next64, h32, h64] at hlow hhigh ⊢
  omega

theorem below_lt {bits n : Nat} {draw : Rng → Nat × Rng} (hdraw : ∀ r, (draw r).1 < pow2 bits) (hn : 0 < n)
    (tries : Nat) (r : Rng) : (below bits draw n tries r).1 < n := by
  induction tries generalizing r with
  | zero => exact hn
  | succ tries ih =>
    unfold below
    dsimp only
    split
    · exact (Nat.div_lt_iff_lt_mul (Nat.zero_lt_of_lt (hdraw r))).2 (by
        rw [Nat.mul_comm n]
        exact Nat.mul_lt_mul_of_pos_right (hdraw r) hn)
    · exact ih _

theorem index_lt (r : Rng) {n : Nat} (hn : 0 < n) : (r.index n).1 < n := by
  unfold index
  exact below_lt next64_lt hn _ r

end Rng

namespace Focus

variable {f g g' : Focus σ} {P Q : Branch → Prop}

/-- The place is that of the state, or of a new one. -/
def Fresh (f : Focus σ) (b : Branch) : Prop := ∀ id, b = .forked id → f.executor.nextStateId ≤ id

theorem Tidy.lt_of_has {id : StateId} (hf : f.Tidy) (h : f.Has id) : id < f.executor.nextStateId := by
  obtain rfl | h := h
  · exact hf.own_lt
  · obtain ⟨s, hs⟩ := Option.ne_none_iff_exists'.1 h
    exact (hf.named id s hs).2

/-- All is written down so far, and at each place of `P` there is a live state. -/
structure Held (f : Focus σ) (P : Branch → Prop) (g : Focus σ) : Prop where
  booked : f.Booked g
  here : f.executor.SeedsFit → ∀ id, P (.forked id) → g.Has id

theorem Held.step (h : f.Held P g) (hg : g.Booked g') : f.Held P g' :=
  ⟨h.booked.trans hg, fun hfit id hid ↦ hg.has (h.booked.fit hfit) (h.here hfit id hid)⟩

theorem Held.mono (h : f.Held P g) (hP : ∀ b, Q b → P b) : f.Held Q g :=
  ⟨h.booked, fun hfit id hid ↦ h.here hfit id (hP _ hid)⟩

theorem Held.setSeeds {id : StateId} {seeds : List Seed} (h : f.Held P g) (hg : g.Tidy)
    (hid : id = g.state.id ∨ P (.forked id))
    (hfree : f.executor.SeedsFit → ∀ seed ∈ seeds, seed.assignment.free) :
    f.Held P { g with executor := { g.executor with seeds := g.executor.seeds.insert id seeds } } where
  booked hfit := by
    have hhas : g.Has id := hid.elim .inl (h.here hfit id)
    obtain ⟨log, hlog⟩ := h.booked hfit
    exact ⟨log ++ [], hlog.trans (.keeps ((Writes.refl g).setSeeds (.inl hhas) fun _ ↦
      ⟨hg.lt_of_has hhas, hfree hfit⟩))⟩
  here := h.here

end Focus

namespace Exec

variable {focus g : Focus σ} {condition : Expr} {x : Exec σ α} {k : α → Exec σ β}

variable {P : Assignment → Prop}

/-- The work concerns its own state alone. If that goes on its solutions are as `P` says, and an error
concerns it alone too. -/
def Bounds (I : Trust) (P : Assignment → Prop) (focus : Focus σ) (r : Except PathError α) (f : Focus σ) :
    Prop :=
  focus.Solo I f ∧
    match r with
    | .ok _ => f.Going → ∀ a, I.Solves a f.state.constraints → P a
    | .error e => e.payload.isFatal = false

theorem yields_settling (hx : x.Ends (fun _ ↦ True) focus (Bounds I P focus)) :
    (settling x).Yields focus fun _ f ↦
      focus.Solo I f ∧ (f.Going → ∀ a, I.Solves a f.state.constraints → P a) := by
  refine ends_settling (fun hdone ↦ ⟨none, rfl, .refl I _, fun hgoing ↦ ?_⟩) fun _ ↦ hx.mono fun r f h ↦ ?_
  · exact absurd (by simpa using hdone) hgoing
  · cases r with
    | ok a => exact ⟨some a, rfl, h⟩
    | error e =>
      have hsettle : (settle e : Exec σ Unit).Stays I False := stays_settle e
      refine Ends.mono (Yields.and (quits_settle h.2 f) (hsettle f)) ?_
      rintro _ f' ⟨u, rfl, hquits, hown⟩
      exact ⟨none, rfl, h.1.trans hown.1, fun hgoing ↦ (hquits hgoing).elim⟩

/-! ## Places -/

variable {bound : Branch → Assignment → Prop}

theorem yields_onBranch {b : Branch} (hg : focus.Spread I bound g) (hb : focus.Fresh b)
    (hx : ∀ f : Focus σ, g.stateAt? b = some f.state → x.Ends (fun _ ↦ True) f (Bounds I P f)) :
    (onBranch b x).Yields g fun _ g' ↦
      focus.Spread I (fun b' a ↦ bound b' a ∧ (b' = b → P a)) g' ∧ g.Booked g' := by
  cases b with
  | current => exact (yields_settling (hx g rfl)).mono fun _ _ h ↦ ⟨hg.work h.1.toOwn h.2, h.1.booked⟩
  | forked id =>
    refine yields_bind (Q := fun _ g' ↦
      focus.Spread I (fun b' a ↦ bound b' a ∧ (b' = .forked id → P a)) g' ∧ g.Booked g')
      (ends_visit (fun hnone ↦ ?_) fun s hs ↦ ?_) fun _ _ h ↦ yields_pure h
    · refine ⟨none, rfl, hg.of_bound (fun _ ha ↦ ⟨ha, nofun⟩) fun id' s hs a ha ↦ ⟨ha, fun heq ↦ ?_⟩, .refl g⟩
      cases heq
      cases hnone.symm.trans hs
    · refine Ends.mono (yields_settling (hx ⟨_, s⟩ hs)) ?_
      rintro _ f ⟨o, rfl, hown, hP⟩
      exact ⟨some o, rfl, hg.visit (hb id rfl) hs hown.toOwn hP,
        .visit hs (hg.named id (hb id rfl) s hs).1 hown.booked⟩

/-! ## Copies -/

theorem ends_spawn_pair : (spawn : Exec σ State).Yields focus fun child f ↦
    Copies I focus child f ∧ focus.Pending child f := by
  refine Ends.mono (Ends.and (ends_spawn_copies (I := I)) ends_spawn_pending) ?_
  rintro _ f ⟨⟨child, rfl, hcopy⟩, _, ⟨⟩, hpending, -⟩
  exact ⟨child, rfl, hcopy, hpending⟩

/-- What became of a state that was copied to some places. -/
structure Multiplied (I : Trust) (focus : Focus σ) (places : List Branch) (g : Focus σ) : Prop where
  spread : focus.Spread I (fun b a ↦ b ∈ places ∧ I.Solves a focus.state.constraints) g
  removed_eq : g.executor.removed = focus.executor.removed
  fresh : ∀ b ∈ places, focus.Fresh b
  held : focus.Held (· ∈ places) g

section

variable {places : List Branch}

theorem Multiplied.work {g' : Focus σ} (hg : Multiplied I focus places g) (hsolo : g.Solo I g')
    (hremoved : g'.executor.removed = g.executor.removed) : Multiplied I focus places g' where
  spread := (hg.spread.work (P := fun _ ↦ True) hsolo.toOwn fun _ _ _ ↦ trivial).mono fun _ _ hb ↦ hb.1
  removed_eq := hremoved.trans hg.removed_eq
  fresh := hg.fresh
  held := hg.held.step hsolo.booked

theorem Multiplied.yields_insert {child : State} {g' : Focus σ} (hg : Multiplied I focus places g)
    (hspread : focus.Spread I (fun b a ↦ b ∈ places ∧ I.Solves a focus.state.constraints) g')
    (hremoved : g'.executor.removed = g.executor.removed) (hpending : g.Pending child g') (hpart : focus.Part child)
    (hsolves : ∀ a, I.Solves a child.constraints → I.Solves a focus.state.constraints) :
    (do
      insertState child
      pure (.forked child.id) : Exec σ Branch).Yields g' fun b g'' ↦ Multiplied I focus (places ++ [b]) g'' := by
  have hid : focus.executor.nextStateId ≤ child.id ∧ child.id < g'.executor.nextStateId := by
    rw [hpending.id_eq, hpending.writes.next_eq]
    exact ⟨hg.spread.next_le, Nat.lt_succ_self _⟩
  have hwider : focus.Spread I (fun b a ↦ b ∈ places ++ [.forked child.id] ∧
      I.Solves a focus.state.constraints) g' :=
    hspread.mono fun b a hb ↦ ⟨List.mem_append_left _ hb.1, hb.2⟩
  have hheld := hg.held.step hpending.insert.booked
  refine ends_bind_ok rfl (yields_pure ⟨hwider.insert hid hpart fun a ha ↦ ⟨by simp, hsolves a ha⟩,
    hremoved.trans hg.removed_eq, fun b hb ↦ ?_, hheld.booked, fun hfit id hmem ↦ ?_⟩)
  · obtain hb | hb := List.mem_append.1 hb
    · exact hg.fresh b hb
    · obtain rfl := List.mem_singleton.1 hb
      rintro _ ⟨⟩
      exact hid.1
  · obtain hmem | hmem := List.mem_append.1 hmem
    · exact hheld.here hfit id hmem
    · cases List.mem_singleton.1 hmem
      exact .inr (by simp)

theorem Multiplied.yields_spawn (hgoing : focus.Going) (hg : Multiplied I focus places g) :
    (do
      let child ← spawn
      insertState child
      pure (.forked child.id) : Exec σ Branch).Yields g fun b g' ↦ Multiplied I focus (places ++ [b]) g' := by
  refine yields_bind (ends_spawn_pair (I := I)) fun child g' ⟨hcopy, hpending⟩ ↦ ?_
  have hnow : g.Going := by rwa [Focus.Going, hg.spread.id_eq, hg.removed_eq]
  have hspread := (hg.spread.work (P := fun _ ↦ True) hcopy.own fun _ _ _ ↦ trivial).mono fun _ _ hb ↦ hb.1
  refine hg.yields_insert hspread hcopy.removed_eq hpending ?_ fun a ha ↦ ?_
  · exact ⟨fun hc ↦ hcopy.constraints_eq ▸ hg.spread.part.valid hc, hcopy.path_eq ▸ hg.spread.part.path⟩
  · exact (hg.spread.own hnow a (hcopy.constraints_eq ▸ ha)).2

theorem Multiplied.yields_duplicate {b : Branch} (ht : focus.Tidy) (hgoing : focus.Going)
    (hg : Multiplied I focus places g) (hb : b ∈ places) :
    (duplicate b).Yields g fun b' g' ↦ Multiplied I focus (places ++ [b']) g' := by
  unfold duplicate
  dsimp only
  cases b with
  | current => exact hg.yields_spawn hgoing
  | forked id =>
    have hid := hg.fresh _ hb id rfl
    refine yields_bind (Q := fun o g' ↦ o.elim (g' = g) fun child ↦
        focus.Spread I (fun b a ↦ b ∈ places ∧ I.Solves a focus.state.constraints) g' ∧
        g'.executor.removed = g.executor.removed ∧ g.Pending child g' ∧ focus.Part child ∧
          ∀ a, I.Solves a child.constraints → I.Solves a focus.state.constraints)
      (ends_visit (fun _ ↦ ⟨none, rfl, rfl⟩) fun s hs ↦ ?_) fun o g' h ↦ ?_
    · refine Ends.mono (ends_spawn_pair (I := I)) ?_
      rintro _ f ⟨child, rfl, hcopy, hpending⟩
      have hspread := (hg.spread.visit (P := fun _ ↦ True) hid hs hcopy.own fun _ _ _ ↦ trivial).mono
        fun _ _ hb ↦ hb.1
      refine ⟨some child, rfl, hspread, hcopy.removed_eq, hpending.visit hs (hg.spread.named id hid s hs).1, ?_,
        fun a ha ↦ ?_⟩
      · have hpart := hg.spread.parts id hid s hs
        exact ⟨fun hc ↦ hcopy.constraints_eq ▸ hpart.valid hc, hcopy.path_eq ▸ hpart.path⟩
      · have hlive : id ∉ g.executor.removed := fun hmem ↦
          Nat.not_lt.2 hid (ht.removed_lt id (hg.removed_eq ▸ hmem))
        exact (hg.spread.new id hid s hs hlive a (hcopy.constraints_eq ▸ ha)).2
    · cases o with
      | none => exact h ▸ hg.yields_spawn hgoing
      | some child => exact ends_bind_ok rfl (hg.yields_insert h.1 h.2.1 h.2.2.1 h.2.2.2.1 h.2.2.2.2)

end

/-- What became of a state that was copied to `arms`, of which some may have been given up. -/
structure Armed (I : Trust) (focus : Focus σ) (arms : List (Option Branch)) (g : Focus σ) : Prop where
  spread : focus.Spread I (fun b a ↦ some b ∈ arms ∧ I.Solves a focus.state.constraints) g
  fresh : ∀ b, some b ∈ arms → focus.Fresh b
  held : focus.Held (some · ∈ arms) g

theorem yields_arms {count : Nat} (ht : focus.Tidy) (hgoing : focus.Going) (hcount : 0 < count) :
    (arms count).Yields focus fun arms g ↦ arms.length = count ∧ Armed I focus arms g := by
  refine ends_bind_ok rfl ?_
  split
  · -- one of the arms is taken, and the state goes there
    have hdraw : (draw (·.index count) : Exec σ Nat).Stays I True := stays_draw _
    have hlt : (draw (·.index count) : Exec σ Nat).Yields focus fun chosen _ ↦ chosen < count :=
      ends_draw ⟨_, rfl, Rng.index_lt _ hcount⟩
    refine yields_bind (hlt.and (hdraw focus)) fun chosen f h ↦ ?_
    have hcurrent : ∀ b, some b ∈ (List.range count).map (fun i ↦ if i = chosen then some Branch.current else none) →
        b = .current := by
      intro b hb
      obtain ⟨i, -, hi⟩ := List.mem_map.1 hb
      split at hi
      · exact (Option.some.inj hi).symm
      · cases hi
    refine yields_pure ⟨by simp, ?_, ?_, h.2.1.booked, ?_⟩
    · refine ((Focus.Spread.refl ht fun a ha ↦ ?_).work h.2.1.toOwn (P := fun _ ↦ True)
        fun _ _ _ ↦ trivial).mono fun _ _ hb ↦ hb.1
      exact ⟨List.mem_map.2 ⟨chosen, List.mem_range.2 h.1, if_pos rfl⟩, ha⟩
    · exact fun b hb id heq ↦ nomatch (hcurrent b hb).symm.trans heq
    · exact fun _ id hid ↦ nomatch hcurrent _ hid
  · refine ends_bind_ok (f := focus.afterForks (count - 1)) rfl ?_
    have hforks := focus.solo_afterForks (I := I) (count - 1)
    have hstart : Multiplied I focus [.current] (focus.afterForks (count - 1)) := by
      refine ⟨?_, rfl, fun b hb ↦ ?_, hforks.booked, fun _ id hid ↦ ?_⟩
      · refine ((Focus.Spread.refl ht fun a ha ↦ ?_).work (P := fun _ ↦ True) hforks.toOwn
          fun _ _ _ ↦ trivial).mono fun _ _ hb ↦ hb.1
        exact ⟨by simp, ha⟩
      · obtain rfl := List.mem_singleton.1 hb
        exact nofun
      · cases List.mem_singleton.1 hid
    refine yields_bind (yields_foldlM (J := fun rest (all : Array Branch) f ↦
      all.size + rest.length = count ∧ .current ∈ all.toList ∧ Multiplied I focus all.toList f) ?_ ?_)
      fun all f h ↦ yields_pure ⟨by simpa using h.1, ?_, fun b hb ↦ h.2.2.fresh b (by simpa using hb),
        h.2.2.held.mono fun b hb ↦ by simpa using hb⟩
    · exact ⟨by simp; omega, by simp, hstart⟩
    · rintro i rest all f ⟨hsize, hcurrent, hall⟩
      have hdraw : (draw (·.index (i + 1)) : Exec σ Nat).Stays I True := stays_draw _
      refine yields_bind ((total_draw _ f).and (hdraw f)) fun parent f₁ h₁ ↦ ?_
      have hmem : all[parent]?.getD .current ∈ all.toList := by
        cases hp : all[parent]? with
        | none => exact hcurrent
        | some b => exact Array.mem_def.1 (Array.mem_of_getElem? hp)
      refine yields_bind ((hall.work h₁.2.1 (h₁.2.2 trivial)).yields_duplicate ht hgoing hmem)
        fun b f₂ h₂ ↦ yields_pure ⟨?_, ?_, ?_⟩
      · rw [Array.size_push, ← hsize, List.length_cons]
        omega
      · exact Array.toList_push ▸ List.mem_append_left _ hcurrent
      · exact Array.toList_push ▸ h₂
    · exact h.2.2.spread.mono fun b a hb ↦ ⟨List.mem_map.2 ⟨b, hb.1, rfl⟩, hb.2⟩

/-! ## Seeds of several states -/

variable {H : Branch → Prop}

theorem yields_seedArm {arm : Option Branch} {seeds : List Seed} (ht : focus.Tidy) (hg : focus.Spread I bound g)
    (hheld : focus.Held H g) (hne : focus.executor.seeds.isEmpty = false)
    (harm : ∀ b, arm = some b → focus.Fresh b ∧ H b)
    (hfree : focus.executor.SeedsFit → ∀ seed ∈ seeds, seed.assignment.free) :
    (seedArm arm seeds).Yields g fun out g' ↦ (∀ b, out = some b → arm = some b) ∧
      focus.Spread I (fun b a ↦ bound b a ∧ (arm = some b → out = some b)) g' ∧ focus.Held H g' := by
  unfold seedArm
  dsimp only
  split
  · exact yields_pure ⟨nofun, hg.mono fun _ _ hb ↦ ⟨hb, nofun⟩, hheld⟩
  · rename_i b
    have hkept : ∀ {g' : Focus σ}, focus.Spread I bound g' →
        focus.Spread I (fun b' a ↦ bound b' a ∧ (some b = some b' → some b = some b')) g' := fun h ↦
      h.mono fun _ _ hb ↦ ⟨hb, id⟩
    have htidy := (hg.succeeds ht).tidy
    split
    · refine ends_bind_ok rfl ?_
      split
      · have hends : (terminateEarly "Unseeded path during replay" : Exec σ Unit).Quits :=
          quits_terminateWith _ _
        have hstays : (terminateEarly "Unseeded path during replay" : Exec σ Unit).Stays I False :=
          stays_terminateWith _ _
        refine yields_bind (yields_onBranch (P := fun _ ↦ False) hg (harm b rfl).1 fun f _ ↦
          Ends.mono (Yields.and (hends f) (hstays f)) ?_) fun _ _ h ↦
            yields_pure ⟨nofun, h.1.mono ?_, hheld.step h.2⟩
        · rintro _ f' ⟨_, rfl, hquits, hown⟩
          exact ⟨hown.1, fun hgoing ↦ (hquits hgoing).elim⟩
        · rintro b' a ⟨hb', hended⟩
          exact ⟨hb', fun heq ↦ (hended (Option.some.inj heq).symm).elim⟩
      · exact yields_pure ⟨fun _ ↦ id, hkept hg, hheld⟩
    · split
      · exact ends_bind_ok rfl (ends_bind_ok rfl (ends_bind_ok rfl
          (yields_pure ⟨fun _ ↦ id, hkept (hg.withSeeds hne _), hheld.setSeeds htidy (.inl rfl) hfree⟩)))
      · exact ends_bind_ok rfl (ends_bind_ok rfl
          (yields_pure ⟨fun _ ↦ id, hkept (hg.withSeeds hne _),
            hheld.setSeeds htidy (.inr (harm _ rfl).2) hfree⟩))

theorem yields_seedEach {arms : List (Option Branch × Nat)} {f : Option Branch × Nat → List Seed}
    {K : Branch → Prop} (ht : focus.Tidy) (hne : focus.executor.seeds.isEmpty = false)
    (hg : focus.Spread I (fun b a ↦ (K b ∨ some b ∈ arms.map (·.1)) ∧ P a) g) (hheld : focus.Held H g)
    (harms : ∀ b, some b ∈ arms.map (·.1) → focus.Fresh b ∧ H b)
    (hfree : focus.executor.SeedsFit → ∀ p, ∀ seed ∈ f p, seed.assignment.free) :
    (arms.mapM fun p ↦ seedArm p.1 (f p)).Yields g fun outs g' ↦
      outs.length = arms.length ∧ (∀ b, some b ∈ outs → some b ∈ arms.map (·.1)) ∧
        focus.Spread I (fun b a ↦ (K b ∨ some b ∈ outs) ∧ P a) g' ∧ focus.Held H g' := by
  induction arms generalizing K g with
  | nil => exact yields_pure ⟨rfl, nofun, by simpa using hg, hheld⟩
  | cons arm arms ih =>
    rw [List.mapM_cons]
    refine yields_bind (yields_seedArm ht hg hheld hne (fun b hb ↦ harms b (by simp [hb])) (hfree · arm))
      fun out g₁ h₁ ↦ ?_
    -- the arm is among those that were given their seeds, unless it was given up
    have hdone : focus.Spread I (fun b a ↦ ((K b ∨ out = some b) ∨ some b ∈ arms.map (·.1)) ∧ P a) g₁ := by
      refine h₁.2.1.mono fun b a hb ↦ ⟨?_, hb.1.2⟩
      obtain hK | hmem := hb.1.1
      · exact .inl (.inl hK)
      · obtain heq | hmem := List.mem_cons.1 hmem
        · exact .inl (.inr (hb.2 heq.symm))
        · exact .inr hmem
    refine yields_bind (ih hdone h₁.2.2 fun b hb ↦ harms b (List.mem_cons_of_mem _ hb)) fun outs g₂ h₂ ↦
      yields_pure ⟨by simpa using h₂.1, fun b hb ↦ ?_, h₂.2.2.1.mono fun b a hb ↦ ⟨?_, hb.2⟩, h₂.2.2.2⟩
    · obtain heq | hmem := List.mem_cons.1 hb
      · exact List.mem_cons.2 (.inl (h₁.1 b heq.symm).symm)
      · exact List.mem_cons_of_mem _ (h₂.2.1 b hmem)
    · obtain (hK | heq) | hmem := hb.1
      · exact .inl hK
      · exact .inr (heq ▸ List.mem_cons_self)
      · exact .inr (List.mem_cons_of_mem _ hmem)

theorem Armed.yields_seedArms {arms : List (Option Branch)} (conditions : List Expr) (ht : focus.Tidy)
    (hg : Armed I focus arms g) :
    (seedArms conditions arms).Yields g fun outs g' ↦ outs.length = arms.length ∧ Armed I focus outs g' := by
  refine ends_bind_ok rfl ?_
  split
  · exact yields_pure ⟨rfl, hg⟩
  · rename_i seeds hseeds
    have hne : focus.executor.seeds.isEmpty = false := Bool.eq_false_iff.2 fun hempty ↦
      nomatch (Focus.isEmpty_seeds_of_getElem? hseeds).symm.trans (hg.spread.steady.seeds hempty)
    have hplace (seed : Seed) : (armOf conditions seed : Exec σ Nat).Stays I True ∧
        (armOf conditions seed : Exec σ Nat).Total := by
      unfold armOf
      split
      · exact ⟨stays_pure _, total_pure _⟩
      · exact ⟨stays_draw _, total_draw _⟩
    have hstays : (seeds.mapM fun seed ↦ return (← armOf conditions seed, seed) : Exec σ _).Stays I True :=
      stays_mapM fun seed _ ↦ stays_bind (hplace seed).1 fun _ ↦ stays_pure _
    have hplaced : ∀ f : Focus σ, (seeds.mapM fun seed ↦ return (← armOf conditions seed, seed) :
        Exec σ _).Yields f fun placed _ ↦ ∀ p ∈ placed, p.2 ∈ seeds := fun f ↦
      yields_mapM fun seed hseed f ↦ yields_bind ((hplace seed).2 f) fun _ _ _ ↦ yields_pure hseed
    refine ends_bind_ok rfl (ends_bind_ok rfl (yields_bind ((hplaced _).and (hstays _)) fun placed g₁ h₁ ↦ ?_))
    have hg₁ := (hg.spread.withSeeds hne _).work (P := fun _ ↦ True) h₁.2.1.toOwn fun _ _ _ ↦ trivial
    have hstart : focus.Spread I (fun b a ↦ (False ∨ some b ∈ arms.zipIdx.map (·.1)) ∧
        I.Solves a focus.state.constraints) g₁ :=
      hg₁.mono fun b a hb ↦ ⟨.inr (by simpa using hb.1.1), hb.1.2⟩
    have hheld : focus.Held (some · ∈ arms) g₁ :=
      (hg.held.step ((Focus.Writes.refl g).dropSeeds g.state.id).booked).step h₁.2.1.booked
    refine (yields_seedEach (f := fun p ↦ (placed.filter (·.1 = p.2)).map (·.2)) ht hne hstart hheld
      (fun b hb ↦ ?_) fun hfit p seed hseed ↦ ?_).mono fun outs g₂ h₂ ↦ ?_
    · have hb : some b ∈ arms := by simpa using hb
      exact ⟨hg.fresh b hb, hb⟩
    · obtain ⟨q, hq, rfl⟩ := List.mem_map.1 hseed
      exact (hg.held.booked.fit hfit _ seeds hseeds).2 _ (h₁.1 q (List.mem_filter.1 hq).1)
    · have hsub : ∀ b, some b ∈ outs → some b ∈ arms := fun b hb ↦ by simpa using h₂.2.1 b hb
      exact ⟨by simpa using h₂.1, h₂.2.2.1.mono fun b a hb ↦ ⟨by simpa using hb.1, hb.2⟩,
        fun b hb ↦ hg.fresh b (hsub b hb), h₂.2.2.2.mono hsub⟩

/-! ## Conditions -/

theorem ends_addConstraint_bounds (hvalid : focus.state.constraints.Valid) (hcond : condition.WellFormed) :
    (addConstraint condition).Ends (fun _ ↦ True) focus (Bounds I (·.val condition ≠ 0) focus) := by
  refine ((ends_addConstraint_solo hvalid hcond).and (concerns_addConstraint condition focus)).mono fun r f h ↦
    ⟨h.1.1.1, ?_⟩
  cases r with
  | ok _ => exact fun _ ↦ h.1.2
  | error e => exact h.2 e rfl

theorem yields_addEach {pairs : List (Option Branch × Expr)} (hvalid : focus.state.constraints.Valid)
    (hg : focus.Spread I bound g) (hfresh : ∀ p ∈ pairs, ∀ b, p.1 = some b → focus.Fresh b)
    (htruth : ∀ p ∈ pairs, p.2.IsTruth) :
    (forIn pairs PUnit.unit fun (arm, condition) _ ↦ do
      onSide arm (addConstraint condition)
      pure (ForInStep.yield PUnit.unit) : Exec σ PUnit).Yields g fun _ g' ↦
        focus.Spread I (fun b a ↦ bound b a ∧ ∀ p ∈ pairs, p.1 = some b → a.val p.2 ≠ 0) g' ∧ g.Booked g' := by
  induction pairs generalizing g bound with
  | nil => exact yields_pure ⟨hg.mono fun _ _ hb ↦ ⟨hb, nofun⟩, .refl g⟩
  | cons p pairs ih =>
    obtain ⟨arm, condition⟩ := p
    rw [List.forall_mem_cons] at hfresh htruth
    rw [List.forIn_cons]
    have hfirst : (onSide arm (addConstraint condition)).Yields g fun _ g' ↦
        focus.Spread I (fun b a ↦ bound b a ∧ (arm = some b → a.val condition ≠ 0)) g' ∧ g.Booked g' := by
      cases arm with
      | none => exact yields_pure ⟨hg.mono fun _ _ hb ↦ ⟨hb, nofun⟩, .refl g⟩
      | some b =>
        have htruth : condition.IsTruth := htruth.1
        refine yields_bind (yields_onBranch (P := fun a ↦ a.val condition ≠ 0) hg (hfresh.1 b rfl) fun f hf ↦
          ends_addConstraint_bounds ?_ htruth.1) fun _ _ h ↦
            yields_pure ⟨h.1.mono fun b' a hb ↦ ⟨hb.1, ?_⟩, h.2⟩
        · cases b with
          | current => exact Option.some.inj hf ▸ hg.part.valid hvalid
          | forked id => exact (hg.parts id (hfresh.1 _ rfl id rfl) _ hf).valid hvalid
        · exact fun heq ↦ hb.2 (Option.some.inj heq).symm
    refine yields_bind (Q := fun r g' ↦ r = ForInStep.yield PUnit.unit ∧
      focus.Spread I (fun b a ↦ bound b a ∧ (arm = some b → a.val condition ≠ 0)) g' ∧ g.Booked g')
      (yields_bind hfirst fun _ _ h ↦ yields_pure ⟨rfl, h⟩) ?_
    rintro _ g₁ ⟨rfl, h₁⟩
    refine (ih h₁.1 hfresh.2 htruth.2).mono fun _ _ h ↦ ⟨h.1.mono fun b a hb ↦ ⟨hb.1.1, ?_⟩, h₁.2.trans h.2⟩
    exact List.forall_mem_cons.2 ⟨hb.1.2, hb.2⟩

theorem ends_branch_makes {conditions : List Expr} (ht : focus.Tidy) (hgoing : focus.Going)
    (hvalid : focus.state.constraints.Valid) (htruth : ∀ e ∈ conditions, e.IsTruth)
    (hapart : ¬twins → conditions.Pairwise fun e e' ↦
      ∀ a, I.Solves a focus.state.constraints → a.val e ≠ 0 → a.val e' = 0) :
    (branch conditions).Ends (fun _ ↦ True) focus fun _ f ↦ focus.Makes I twins False f := by
  unfold branch
  split
  · exact ends_pure (.refl _)
  · rename_i hne
    have hcount : 0 < conditions.length := List.length_pos_iff.2 (by simpa using hne)
    refine Ends.mono (P := fun r f ↦ ∃ l, r = .ok l ∧ focus.Makes I twins False f) ?_ fun _ _ ⟨_, _, h⟩ ↦ h
    refine yields_bind (yields_arms (I := I) ht hgoing hcount) fun arms f ⟨hlength, harms⟩ ↦ ?_
    refine yields_bind (harms.yields_seedArms conditions ht) fun outs f ⟨hlength', houts⟩ ↦ ?_
    have hsize : outs.length = conditions.length := hlength'.trans hlength
    refine yields_bind (yields_addEach hvalid houts.spread (fun p hp b hb ↦ ?_) fun p hp ↦ ?_) fun _ f h ↦
      yields_pure ⟨.divide ⟨hgoing, h.1, fun _ _ hb ↦ hb.1.2, fun htwins b b' a hne hb hb' ↦ ?_⟩,
        houts.held.booked.trans h.2⟩
    · exact houts.fresh b (hb ▸ (List.of_mem_zip hp).1)
    · exact htruth _ (List.of_mem_zip hp).2
    · -- the places are those of two conditions, which cannot both hold
      have hplace : ∀ {b}, some b ∈ outs → (∀ p ∈ outs.zip conditions, p.1 = some b → a.val p.2 ≠ 0) →
          ∃ i, outs[i]? = some (some b) ∧ ∃ hi : i < conditions.length, a.val conditions[i] ≠ 0 := by
        intro b hb hconditions
        obtain ⟨i, hi, hbi⟩ := List.getElem_of_mem hb
        have hi' : i < conditions.length := hsize ▸ hi
        have hzip : (outs[i], conditions[i]) ∈ outs.zip conditions :=
          List.mem_iff_getElem.2 ⟨i, by rw [List.length_zip]; omega, List.getElem_zip⟩
        exact ⟨i, by simp [hi, hbi], hi', hconditions _ hzip hbi⟩
      obtain ⟨i, hbi, hi, hholds⟩ := hplace hb.1.1 hb.2
      obtain ⟨j, hbj, hj, hholds'⟩ := hplace hb'.1.1 hb'.2
      have hpairs := List.pairwise_iff_getElem.1 (hapart htwins)
      obtain hij | rfl | hij := Nat.lt_trichotomy i j
      · exact hholds' (hpairs i j hi hj hij a hb.1.2 hholds)
      · exact hne (Option.some.inj (Option.some.inj (hbi.symm.trans hbj)))
      · exact hholds (hpairs j i hj hi hij a hb.1.2 hholds')

end Exec

end Symex
