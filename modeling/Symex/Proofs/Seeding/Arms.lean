import Symex.Proofs.Lineage.Runs
import Symex.Proofs.Seeding.Custody

namespace Symex

variable {σ α β : Type}

/-! ## Places -/

/-- The places of a state and of its first `n` copies. -/
def Branch.places (next n : Nat) : List Branch := .current :: (List.range' next n).map .forked

theorem Branch.places_succ (next n : Nat) : places next (n + 1) = places next n ++ [.forked (next + n)] := by
  simp [places, List.range'_1_concat]

theorem Focus.names_eq_places {f g : Focus σ} {n : Nat} {ids : List StateId} (h : f.Tends n ids g) :
    (Branch.places f.executor.nextStateId n).map (·.name f.state.id) = f.names g := by
  simp [Branch.places, Branch.name, names, h.next_eq, Function.comp_def]

namespace Exec

variable {x : Exec σ α} {focus g : Focus σ} {conditions : List Expr} {arm : Option Branch}

theorem yields_spawn_tends : (spawn : Exec σ State).Yields focus fun child f ↦
    child.id = focus.executor.nextStateId ∧ focus.Tends 1 [] f :=
  ends_spawn_pending.mono fun _ _ ⟨child, hr, h, hseeds⟩ ↦
    ⟨child, hr, h.id_eq, .of_seeds_eq h.writes.id_eq h.writes.next_eq h.writes.names hseeds⟩

theorem yields_duplicate_tends (b : Branch) : (duplicate b : Exec σ Branch).Yields focus fun b' f ↦
    b' = .forked focus.executor.nextStateId ∧ focus.Tends 1 [] f := by
  have hinsert : ∀ (child : State) (f : Focus σ), child.id = focus.executor.nextStateId ∧ focus.Tends 1 [] f →
      (do
        insertState child
        return .forked child.id : Exec σ Branch).Yields f fun b' f ↦
          b' = .forked focus.executor.nextStateId ∧ focus.Tends 1 [] f := fun child f ⟨hid, h⟩ ↦
    ends_bind_ok rfl (yields_pure ⟨congrArg _ hid, h.trans (.insert f child)⟩)
  cases b with
  | current => exact yields_bind yields_spawn_tends hinsert
  | forked id =>
    refine yields_bind (Q := fun o f ↦ o = none ∧ f = focus ∨
        ∃ child : State, o = some child ∧ child.id = focus.executor.nextStateId ∧ focus.Tends 1 [] f)
      (ends_visit (fun _ ↦ ⟨none, rfl, .inl ⟨rfl, rfl⟩⟩) fun s hs ↦ Ends.mono yields_spawn_tends ?_) fun o f h ↦ ?_
    · rintro _ f ⟨child, rfl, hid, h⟩
      exact ⟨some child, rfl, .inr ⟨child, rfl, hid, .visit hs h⟩⟩
    · obtain ⟨rfl, rfl⟩ | ⟨child, rfl, h⟩ := h
      · exact yields_bind yields_spawn_tends hinsert
      · exact hinsert child f h

theorem yields_arms_places {count : Nat} (hfree : count ≤ 1 ∨ ¬focus.Inhibited) :
    (arms count).Yields focus fun arms f ↦
      arms = (Branch.places focus.executor.nextStateId (count - 1)).map some ∧ focus.Tends (count - 1) [] f := by
  obtain ⟨b, hb, hiff⟩ := run_forkInhibited focus
  refine ends_bind_ok hb ?_
  rw [if_neg]
  case hnc => exact fun h ↦ hfree.elim (Nat.not_le.2 h.1) fun hnot ↦ hnot (hiff.1 h.2)
  refine ends_bind_ok (f := focus.afterForks (count - 1)) rfl ?_
  refine yields_bind (yields_foldlM (J := fun rest (all : Array Branch) f ↦ ∃ n, all.size = n + 1 ∧
    n + rest.length = count - 1 ∧ all.toList = Branch.places focus.executor.nextStateId n ∧ focus.Tends n [] f)
    ⟨0, rfl, by simp, rfl, .of_quiet (focus.quiet_afterForks _) rfl⟩ ?_) ?_
  · rintro i rest all f ⟨n, hsize, hlength, hplaces, hf⟩
    refine yields_bind ((total_draw _ f).and (spares_draw _ f)) fun parent f₁ h₁ ↦ ?_
    refine yields_bind (yields_duplicate_tends _) fun b f₂ h₂ ↦ yields_pure ⟨n + 1, ?_, ?_, ?_, ?_⟩
    · rw [Array.size_push, hsize]
    · rw [List.length_cons] at hlength
      omega
    · rw [Array.toList_push, hplaces, Branch.places_succ, h₂.1, h₁.2.next_eq, hf.next_eq, Nat.add_zero]
    · exact (hf.trans h₁.2).trans h₂.2
  · rintro all f ⟨n, -, hlength, hplaces, hf⟩
    obtain rfl : n = count - 1 := by simpa using hlength
    exact yields_pure ⟨by rw [hplaces], hf⟩

theorem yields_arms_inhibited {count : Nat} (hcount : 1 < count) (hinhibited : focus.Inhibited) :
    (arms count).Yields focus fun arms f ↦ focus.Tends 0 [] f ∧ ∃ chosen < count,
      arms = (List.range count).map fun i ↦ if i = chosen then some .current else none := by
  obtain ⟨b, hb, hiff⟩ := run_forkInhibited focus
  refine ends_bind_ok hb ?_
  rw [if_pos ⟨hcount, hiff.2 hinhibited⟩]
  have hdraw : (draw (·.index count) : Exec σ Nat).Yields focus fun chosen _ ↦ chosen < count :=
    ends_draw ⟨_, rfl, Rng.index_lt _ (Nat.zero_lt_of_lt hcount)⟩
  exact yields_bind (hdraw.and (spares_draw _ focus)) fun chosen f h ↦ yields_pure ⟨h.2, chosen, h.1, rfl⟩

end Exec

/-! ## Seeds of arms -/

namespace Seed

/-- Each of the seeds is sent to an arm: the first one of which it satisfies the condition, or else any. -/
structure Sent (conditions : List Expr) (seeds : List Seed) (sent : List (Nat × Seed)) : Prop where
  seeds_eq : sent.map (·.2) = seeds
  arm_lt : ∀ p ∈ sent, p.1 < conditions.length
  arm_eq : ∀ p ∈ sent, ∀ i ∈ conditions.findIdx? (p.2.satisfies ·), p.1 = i

def share (sent : List (Nat × Seed)) (i : Nat) : List Seed := (sent.filter (·.1 = i)).map (·.2)

theorem perm_share (sent : List (Nat × Seed)) (n : Nat) :
    ((List.range n).flatMap (share sent)).Perm ((sent.filter (·.1 < n)).map (·.2)) := by
  induction n with
  | zero => simp
  | succ n ih =>
    have hbelow : (sent.filter (·.1 < n + 1)).filter (·.1 < n) = sent.filter (·.1 < n) := by
      rw [List.filter_filter]
      exact List.filter_congr fun p _ ↦ by grind
    have hlast : (sent.filter (·.1 < n + 1)).filter (fun p ↦ !decide (p.1 < n)) = sent.filter (·.1 = n) := by
      rw [List.filter_filter]
      exact List.filter_congr fun p _ ↦ by grind
    have hsplit := List.filter_append_perm (fun p : Nat × Seed ↦ decide (p.1 < n)) (sent.filter (·.1 < n + 1))
    rw [hbelow, hlast] at hsplit
    rw [List.range_succ, List.flatMap_append, List.flatMap_singleton]
    have := hsplit.map (·.2)
    rw [List.map_append] at this
    exact (ih.append_right _).trans this

theorem Sent.perm {conditions : List Expr} {seeds : List Seed} {sent : List (Nat × Seed)}
    (h : Sent conditions seeds sent) : ((List.range conditions.length).flatMap (share sent)).Perm seeds := by
  have hall : sent.filter (·.1 < conditions.length) = sent :=
    List.filter_eq_self.2 fun p hp ↦ decide_eq_true (h.arm_lt p hp)
  have := perm_share sent conditions.length
  rwa [hall, h.seeds_eq] at this

end Seed

namespace Exec

theorem yields_send (hconditions : conditions ≠ []) (seeds : List Seed) :
    (seeds.mapM fun seed ↦ return (← armOf conditions seed, seed) : Exec σ _).Yields focus fun sent f ↦
      Seed.Sent conditions seeds sent ∧ focus.Tends 0 [] f := by
  induction seeds generalizing focus with
  | nil => exact yields_pure ⟨⟨rfl, nofun, nofun⟩, .refl focus⟩
  | cons seed seeds ih =>
    have harm : (armOf conditions seed : Exec σ Nat).Yields focus fun i f ↦
        (i < conditions.length ∧ ∀ j ∈ conditions.findIdx? (seed.satisfies ·), i = j) ∧ focus.Tends 0 [] f := by
      unfold armOf
      split
      · rename_i i hi
        have hlt := (List.findIdx?_eq_some_iff_getElem.1 hi).1
        exact yields_pure ⟨⟨hlt, fun j hj ↦ Option.some.inj (hi.symm.trans hj)⟩, .refl focus⟩
      · rename_i hnone
        have hdraw : (draw (·.index conditions.length) : Exec σ Nat).Yields focus fun i _ ↦ i < conditions.length :=
          ends_draw ⟨_, rfl, Rng.index_lt _ (List.length_pos_iff.2 hconditions)⟩
        exact (hdraw.and (spares_draw _ focus)).mono fun i f h ↦
          ⟨⟨h.1, fun j hj ↦ absurd (hnone.symm.trans hj) (Option.some_ne_none j).symm⟩, h.2⟩
    rw [List.mapM_cons]
    refine yields_bind (Q := fun p f ↦ p.2 = seed ∧ (p.1 < conditions.length ∧
        ∀ j ∈ conditions.findIdx? (p.2.satisfies ·), p.1 = j) ∧ focus.Tends 0 [] f)
      (yields_bind harm fun i f h ↦ yields_pure ⟨rfl, h⟩) ?_
    rintro p f ⟨rfl, h, hf⟩
    refine yields_bind ih ?_
    rintro sent f' ⟨hsent, hf'⟩
    refine yields_pure ⟨⟨?_, ?_, ?_⟩, hf.trans hf'⟩
    · rw [List.map_cons, hsent.seeds_eq]
    · exact List.forall_mem_cons.2 ⟨h.1, hsent.arm_lt⟩
    · exact List.forall_mem_cons.2 ⟨h.2, hsent.arm_eq⟩

end Exec

/-! ### Arms take their seeds -/

namespace Focus

variable {f g h : Focus σ} {stock stock' : List (StateId × List Seed)}

/-- The states of `stock` have just these seeds now, and the others those that they had. -/
structure Stocked (stock : List (StateId × List Seed)) (f g : Focus σ) : Prop where
  id_eq : g.state.id = f.state.id
  next_eq : g.executor.nextStateId = f.executor.nextStateId
  named : f.executor.Named → g.executor.Named
  given : ∀ p ∈ stock, g.executor.seedsOf p.1 = p.2
  others : ∀ id : StateId, id ∉ stock.map (·.1) → g.executor.seeds[id]? = f.executor.seeds[id]?

theorem Tends.stocked (h : f.Tends 0 [] g) : f.Stocked [] g :=
  ⟨h.id_eq, h.next_eq, h.named, nofun, fun id _ ↦ h.others id List.not_mem_nil⟩

theorem Stocked.trans (hf : f.Stocked stock g) (hg : g.Stocked stock' h)
    (hapart : ∀ p ∈ stock, p.1 ∉ stock'.map (·.1)) : f.Stocked (stock ++ stock') h where
  id_eq := hg.id_eq.trans hf.id_eq
  next_eq := hg.next_eq.trans hf.next_eq
  named hnamed := hg.named (hf.named hnamed)
  given p hp := by
    obtain hp | hp := List.mem_append.1 hp
    · rw [Executor.seedsOf, hg.others p.1 (hapart p hp)]
      exact hf.given p hp
    · exact hg.given p hp
  others id hid := by
    rw [List.map_append, List.mem_append, not_or] at hid
    exact (hg.others id hid.2).trans (hf.others id hid.1)

theorem Stocked.flatMap_seedsOf (h : f.Stocked stock g) :
    (stock.map (·.1)).flatMap g.executor.seedsOf = stock.flatMap (·.2) := by
  rw [List.flatMap_map]
  exact List.flatMap_congr h.given

theorem Tends.flatMap_seedsOf {n : Nat} {ids : List StateId} (h : f.Tends n ids g) (all : List StateId) :
    List.Forall₂ Seed.Patched (all.flatMap f.executor.seedsOf) (all.flatMap g.executor.seedsOf) := by
  induction all with
  | nil => exact .nil
  | cons id all ih => exact List.rel_append (h.seeds id) ih

theorem Tends.stocked_nil (h : f.Tends 0 [] g) {id : StateId} (hnone : f.executor.seeds[id]? = none) :
    f.Stocked [(id, [])] g where
  id_eq := h.id_eq
  next_eq := h.next_eq
  named := h.named
  given p hp := by
    obtain rfl := List.mem_singleton.1 hp
    rw [h.seedsOf_eq, Executor.seedsOf, hnone, Option.getD_none]
  others id _ := h.others id List.not_mem_nil

theorem Stocked.setSeeds (f : Focus σ) (id : StateId) (seeds : List Seed) :
    f.Stocked [(id, seeds)] { f with executor := { f.executor with seeds := f.executor.seeds.insert id seeds } } where
  id_eq := rfl
  next_eq := rfl
  named h := h
  given p hp := by
    obtain rfl := List.mem_singleton.1 hp
    simp [Executor.seedsOf]
  others id' hid := by
    have hne : id ≠ id' := by simpa [eq_comm] using hid
    simp only [getElem?_insert_state, if_neg hne]

end Focus

namespace Exec

variable {focus : Focus σ} {arm : Option Branch} {own : StateId}

def stock (own : StateId) (share : Nat → List Seed) (arms : List (Option Branch × Nat)) :
    List (StateId × List Seed) :=
  arms.flatMap fun p ↦ p.1.toList.map fun b ↦ (b.name own, share p.2)

theorem ends_seedArm {share : Nat → List Seed} {p : Option Branch × Nat} (hown : focus.state.id = own)
    (hnone : ∀ id ∈ (stock own share [p]).map (·.1), focus.executor.seeds[id]? = none) :
    (seedArm p.1 (share p.2)).Ends (fun _ ↦ True) focus fun r f ↦ focus.Stocked (stock own share [p]) f ∧
      ∀ out, r = .ok out → out = p.1 ∨ share p.2 = [] ∧ out = none := by
  subst hown
  obtain ⟨arm, i⟩ := p
  unfold seedArm
  dsimp only
  split
  · exact ends_pure ⟨(Focus.Tends.refl focus).stocked, fun _ h ↦ .inl (Except.ok.inj h).symm⟩
  · rename_i b
    have hnone : focus.executor.seeds[b.name focus.state.id]? = none := hnone _ (by simp [stock])
    have hstock : stock focus.state.id share [(some b, i)] = [(b.name focus.state.id, share i)] := rfl
    rw [hstock]
    split
    · rename_i hempty
      rw [List.isEmpty_iff] at hempty
      rw [hempty]
      refine ends_bind_ok rfl ?_
      split
      · refine ends_bind (P := fun _ f ↦ focus.Tends 0 [] f) ?_ (fun _ f h ↦ ends_pure ⟨h.stocked_nil hnone, ?_⟩)
          fun _ f h ↦ ⟨h.stocked_nil hnone, nofun⟩
        · exact ends_onBranch_spared fun f ↦ spares_terminateWith _ _ f
        · exact fun _ h ↦ .inr ⟨rfl, (Except.ok.inj h).symm⟩
      · exact ends_pure ⟨(Focus.Tends.refl focus).stocked_nil hnone, fun _ h ↦ .inl (Except.ok.inj h).symm⟩
    · split
      · exact ends_bind_ok rfl (ends_bind_ok rfl (ends_bind_ok rfl
          (ends_pure ⟨.setSeeds _ _ _, fun _ h ↦ .inl (Except.ok.inj h).symm⟩)))
      · exact ends_bind_ok rfl (ends_bind_ok rfl
          (ends_pure ⟨.setSeeds _ _ _, fun _ h ↦ .inl (Except.ok.inj h).symm⟩))

theorem ends_seedEach {arms : List (Option Branch × Nat)} {share : Nat → List Seed} (hown : focus.state.id = own)
    (hdistinct : ((stock own share arms).map (·.1)).Nodup)
    (hnone : ∀ id ∈ (stock own share arms).map (·.1), focus.executor.seeds[id]? = none) :
    (arms.mapM fun p ↦ seedArm p.1 (share p.2)).Ends (fun _ ↦ True) focus fun r f ↦ ∀ outs, r = .ok outs →
      focus.Stocked (stock own share arms) f ∧
      List.Forall₂ (fun p out ↦ out = p.1 ∨ share p.2 = [] ∧ out = none) arms outs := by
  induction arms generalizing focus with
  | nil =>
    refine ends_pure fun outs h ↦ ⟨(Focus.Tends.refl focus).stocked, ?_⟩
    obtain rfl := Except.ok.inj h
    exact .nil
  | cons p arms ih =>
    have hcons : stock own share (p :: arms) = stock own share [p] ++ stock own share arms := by simp [stock]
    rw [hcons, List.map_append] at hdistinct hnone
    obtain ⟨-, hdistinct, hapart⟩ := List.nodup_append.1 hdistinct
    rw [List.mapM_cons]
    refine ends_bind (ends_seedArm hown fun id hid ↦ hnone id (List.mem_append_left _ hid))
      (fun out f ⟨hf, hout⟩ ↦ ?_) fun _ _ _ ↦ nofun
    refine ends_bind (ih (hf.id_eq.trans hown) hdistinct fun id hid ↦ ?_)
      (fun outs f' h ↦ ends_pure fun _ heq ↦ ?_) fun _ _ _ ↦ nofun
    · rw [hf.others id fun hmem ↦ hapart id hmem id hid rfl]
      exact hnone id (List.mem_append_right _ hid)
    · obtain ⟨hf', houts⟩ := h outs rfl
      obtain rfl := Except.ok.inj heq
      rw [hcons]
      refine ⟨hf.trans hf' fun q hq hmem ↦ ?_, .cons (hout out rfl) houts⟩
      exact hapart q.1 (List.mem_map_of_mem hq) q.1 hmem rfl

def names (own : StateId) (arms : List (Option Branch)) : List StateId :=
  arms.flatMap fun arm ↦ arm.toList.map (·.name own)

theorem map_fst_stock (own : StateId) (share : Nat → List Seed) (arms : List (Option Branch)) :
    (stock own share arms.zipIdx).map (·.1) = names own arms := by
  have hfst : arms.zipIdx.map (·.1) = arms := List.zipIdx_map_fst 0 arms
  conv_rhs => rw [names, ← hfst, List.flatMap_map]
  rw [stock, List.map_flatMap]
  simp [Function.comp_def]

theorem names_map_some (own : StateId) (places : List Branch) :
    names own (places.map some) = places.map (·.name own) := by
  rw [names, List.flatMap_map, List.map_eq_flatMap]
  rfl

theorem flatMap_snd_stock (own : StateId) (share : Nat → List Seed) (places : List Branch) :
    (stock own share (places.map some).zipIdx).flatMap (·.2) = (List.range places.length).flatMap share := by
  rw [stock, List.flatMap_assoc, List.zipIdx_map, List.flatMap_map]
  have hsnd : places.zipIdx.map (·.2) = List.range places.length := by
    rw [List.zipIdx_map_snd, List.range_eq_range']
  rw [← hsnd, List.flatMap_map]
  simp

theorem stock_chosen (own : StateId) (share : Nat → List Seed) (chosen n : Nat) :
    stock own share ((List.range n).map fun i ↦ if i = chosen then some .current else none).zipIdx =
      if chosen < n then [(own, share chosen)] else [] := by
  induction n with
  | zero => rfl
  | succ n ih =>
    rw [List.range_succ, List.map_append, List.zipIdx_append, stock, List.flatMap_append]
    rw [stock] at ih
    rw [ih]
    obtain hlt | rfl | hgt := Nat.lt_trichotomy chosen n
    · simp [hlt, Nat.lt_succ_of_lt hlt, Nat.ne_of_gt hlt]
    · simp [Branch.name]
    · simp [Nat.not_lt.2 (Nat.le_of_lt hgt), Nat.not_lt.2 (Nat.succ_le_of_lt hgt), Nat.ne_of_lt hgt]

/-- What became of the arms when they took their seeds. -/
def Taken (share : Nat → List Seed) (arms outs : List (Option Branch)) : Prop :=
  List.Forall₂ (fun p out ↦ out = p.1 ∨ share p.2 = [] ∧ out = none) arms.zipIdx outs

theorem Taken.getElem? {share : Nat → List Seed} {arms outs : List (Option Branch)} (h : Taken share arms outs)
    {i : Nat} {out : Option Branch} (hi : outs[i]? = some out) :
    ∃ arm, arms[i]? = some arm ∧ (out = arm ∨ share i = [] ∧ out = none) := by
  obtain ⟨hlength, hall⟩ := List.forall₂_iff_get.1 h
  obtain ⟨hlt, rfl⟩ := List.getElem?_eq_some_iff.1 hi
  have hlt' : i < arms.zipIdx.length := hlength ▸ hlt
  have hi' : i < arms.length := by simpa using hlt'
  refine ⟨arms[i], by simp, ?_⟩
  simpa using hall i hlt' hlt

theorem ends_seedArms {conditions : List Expr} {arms : List (Option Branch)} (hconditions : conditions ≠ [])
    (hcurrent : some .current ∈ arms) (hown : focus.state.id = own) (hdistinct : (names own arms).Nodup)
    (hnone : ∀ id ∈ names own arms, id ≠ own → focus.executor.seeds[id]? = none) :
    (seedArms conditions arms).Ends (fun _ ↦ True) focus fun r f ↦ ∀ outs, r = .ok outs →
      ∃ sent, Seed.Sent conditions (focus.executor.seedsOf own) sent ∧ Taken (Seed.share sent) arms outs ∧
        focus.Stocked (stock own (Seed.share sent) arms.zipIdx) f := by
  subst hown
  refine ends_bind_ok rfl ?_
  split
  · rename_i hseeds
    refine ends_pure fun outs h ↦ ⟨[], ⟨?_, nofun, nofun⟩, ?_, rfl, rfl, id, fun p hp ↦ ?_, fun _ _ ↦ rfl⟩
    · rw [Executor.seedsOf, hseeds]
      rfl
    · obtain rfl := Except.ok.inj h
      refine List.forall₂_iff_get.2 ⟨by simp, fun i _ _ ↦ .inl (by simp)⟩
    · have hp' : p.2 = [] := by
        obtain ⟨q, -, hq⟩ := List.mem_flatMap.1 hp
        obtain ⟨b, -, rfl⟩ := List.mem_map.1 hq
        rfl
      rw [hp', Executor.seedsOf]
      by_cases heq : p.1 = focus.state.id
      · rw [heq, hseeds, Option.getD_none]
      · have hmem : p.1 ∈ names focus.state.id arms := by
          rw [← map_fst_stock _ (Seed.share [])]
          exact List.mem_map_of_mem hp
        rw [hnone p.1 hmem heq, Option.getD_none]
  · rename_i seeds hseeds
    refine ends_bind_ok rfl (ends_bind_ok rfl (yields_bind (yields_send hconditions seeds) ?_))
    rintro sent f ⟨hsent, hf⟩
    have hfst := map_fst_stock focus.state.id (Seed.share sent) arms
    rw [← hfst] at hdistinct
    refine (ends_seedEach hf.id_eq hdistinct fun id hid ↦ ?_).mono fun r g h outs hr ↦ ?_
    · rw [hf.others id List.not_mem_nil, Focus.getElem?_erase_state]
      split
      · rfl
      · exact hnone id (hfst ▸ hid) (Ne.symm ‹_›)
    · obtain ⟨hg, houts⟩ := h outs hr
      refine ⟨sent, ?_, houts, hg.id_eq.trans hf.id_eq, hg.next_eq.trans hf.next_eq, fun h ↦ hg.named (hf.named h),
        hg.given, fun id hid ↦ ?_⟩
      · rwa [Executor.seedsOf, hseeds]
      · have hne : focus.state.id ≠ id := by
          rintro rfl
          rw [hfst] at hid
          exact hid (List.mem_flatMap.2 ⟨some .current, hcurrent, List.mem_singleton_self _⟩)
        rw [hg.others id hid, hf.others id List.not_mem_nil, Focus.getElem?_erase_state, if_neg hne]

theorem ends_addEach {pairs : List (Option Branch × Expr)} (ids : List StateId) (hnamed : focus.executor.Named)
    (hpairs : ∀ p ∈ pairs, ∀ b ∈ p.1, b.name focus.state.id ∈ ids) :
    (forIn pairs PUnit.unit fun (arm, condition) _ ↦ do
      onSide arm (addConstraint condition)
      pure (ForInStep.yield PUnit.unit) : Exec σ PUnit).Ends (fun _ ↦ True) focus fun _ f ↦ focus.Tends 0 ids f := by
  induction pairs generalizing focus with
  | nil => exact ends_pure ((Focus.Tends.refl focus).mono (List.nil_subset _))
  | cons p pairs ih =>
    obtain ⟨arm, condition⟩ := p
    rw [List.forall_mem_cons] at hpairs
    rw [List.forIn_cons]
    have hside : (onSide arm (addConstraint condition)).Ends (fun _ ↦ True) focus fun _ f ↦ focus.Tends 0 ids f := by
      cases arm with
      | none => exact ends_pure ((Focus.Tends.refl focus).mono (List.nil_subset _))
      | some b =>
        refine ends_bind (P := fun _ f ↦ focus.Tends 0 ids f) (ends_onBranch_tends hnamed fun f hf ↦ ?_)
          (fun _ _ h ↦ ends_pure h) fun _ _ h ↦ h
        refine (ends_addConstraint_tends condition f).mono fun _ _ h ↦ h.mono ?_
        exact List.cons_subset.2 ⟨hf ▸ hpairs.1 b rfl, List.nil_subset _⟩
    refine ends_bind (P := fun r f ↦ focus.Tends 0 ids f ∧ ∀ a, r = .ok a → a = .yield ⟨⟩)
      (ends_bind hside (fun _ _ h ↦ ends_pure ⟨h, fun _ ha ↦ (Except.ok.inj ha).symm⟩) fun _ _ h ↦ ⟨h, nofun⟩) ?_
      fun _ _ h ↦ h.1
    rintro a f ⟨hf, ha⟩
    obtain rfl := ha a rfl
    exact (ih (hf.named hnamed) fun q hq b hb ↦ hf.id_eq ▸ hpairs.2 q hq b hb).mono fun _ _ h ↦ hf.trans h

theorem ends_armed {conditions : List Expr} {arms : List (Option Branch)} (hconditions : conditions ≠ [])
    (hcurrent : some .current ∈ arms) (hown : focus.state.id = own) (hnamed : focus.executor.Named)
    (hdistinct : (names own arms).Nodup)
    (hnone : ∀ id ∈ names own arms, id ≠ own → focus.executor.seeds[id]? = none) :
    (do
      let arms ← seedArms conditions arms
      for (arm, condition) in arms.zip conditions do
        onSide arm (addConstraint condition)
      return arms : Exec σ _).Ends (fun _ ↦ True) focus fun r f ↦ ∀ outs, r = .ok outs →
        ∃ sent, Seed.Sent conditions (focus.executor.seedsOf own) sent ∧ Taken (Seed.share sent) arms outs ∧
          ∃ g, focus.Stocked (stock own (Seed.share sent) arms.zipIdx) g ∧ g.Tends 0 (names own arms) f := by
  refine ends_bind (ends_seedArms hconditions hcurrent hown hdistinct hnone) (fun outs g h ↦ ?_) fun _ _ _ ↦ nofun
  obtain ⟨sent, hsent, htaken, hg⟩ := h outs rfl
  refine ends_bind (ends_addEach (names own arms) (hg.named hnamed) fun p hp b hb ↦ ?_)
    (fun _ f hf ↦ ends_pure fun _ heq ↦ ?_) fun _ _ _ ↦ nofun
  · obtain ⟨i, hi⟩ := List.getElem?_of_mem (List.of_mem_zip hp).1
    obtain ⟨arm, harm, heq | heq⟩ := htaken.getElem? hi
    · refine List.mem_flatMap.2 ⟨arm, List.mem_of_getElem? harm, List.mem_map.2 ⟨b, ?_, ?_⟩⟩
      · rw [← heq]
        exact Option.mem_toList.2 hb
      · rw [hg.id_eq, hown]
    · rw [heq.2] at hb
      cases hb
  · obtain rfl := Except.ok.inj heq
    exact ⟨sent, hsent, htaken, g, hg, hf⟩

theorem ends_branch_hands {conditions : List Expr} (hfit : focus.executor.SeedsFit)
    (hlt : focus.state.id < focus.executor.nextStateId) (hnamed : focus.executor.Named)
    (hallowed : conditions.length ≤ 1 ∨ ¬focus.Inhibited) :
    (branch conditions).Ends (fun _ ↦ True) focus fun r f ↦ ∀ arms : List (Option Branch), r = .ok arms →
      focus.Hands Seed.Patched f ∧
      ∀ (i : Nat) (id : StateId), arms[i]? = some none → (focus.names f)[i]? = some id →
        f.executor.seedsOf id = [] := by
  unfold branch
  split
  · refine ends_pure fun arms h ↦ ?_
    obtain rfl := Except.ok.inj h
    exact ⟨(Focus.Tends.refl focus).hands .refl, nofun⟩
  rename_i hne
  have hconditions : conditions ≠ [] := by simpa using hne
  refine yields_bind (yields_arms_places hallowed) ?_
  rintro _ g ⟨rfl, hg⟩
  have hnames := names_map_some focus.state.id (Branch.places focus.executor.nextStateId (conditions.length - 1))
  rw [Focus.names_eq_places hg] at hnames
  have hrange : focus.names g = focus.state.id :: List.range' focus.executor.nextStateId (conditions.length - 1) := by
    rw [Focus.names, hg.next_eq, Nat.add_sub_cancel_left]
  refine (ends_armed hconditions (by simp [Branch.places]) hg.id_eq (hg.named hnamed) ?_ fun id hid hne ↦ ?_).mono
    fun r f h arms hr ↦ ?_
  · rw [hnames, hrange, List.nodup_cons, List.mem_range'_1]
    exact ⟨fun h ↦ Nat.not_le.2 hlt h.1, List.nodup_range'⟩
  · rw [hnames, hrange, List.mem_cons, List.mem_range'_1] at hid
    rw [hg.others id List.not_mem_nil, Option.eq_none_iff_forall_ne_some]
    exact fun seeds h ↦ Nat.not_le.2 (hfit id seeds h).1 (hid.resolve_left hne).1
  · obtain ⟨sent, hsent, htaken, g', hstock, hf⟩ := h arms hr
    have hsame : focus.names f = focus.names g := by
      rw [Focus.names, hf.next_eq, hstock.next_eq, Nat.add_zero, Focus.names]
    have hlength : (Branch.places focus.executor.nextStateId (conditions.length - 1)).length = conditions.length := by
      have := List.length_pos_iff.2 hconditions
      simp only [Branch.places, List.length_cons, List.length_map, List.length_range']
      omega
    have hshares := hstock.flatMap_seedsOf
    rw [map_fst_stock, flatMap_snd_stock, hnames, hlength] at hshares
    rw [hg.seedsOf_eq] at hsent
    refine ⟨⟨⟨_, hsent.perm, ?_⟩, fun id hid ↦ ?_⟩, fun i id hi hid ↦ ?_⟩
    · rw [← hshares, hsame]
      exact hf.flatMap_seedsOf _
    · rw [hsame, ← hnames] at hid
      rw [hf.others id hid, hstock.others id (by rwa [map_fst_stock]), hg.others id List.not_mem_nil]
    · rw [hsame, ← Focus.names_eq_places hg, List.getElem?_map, Option.map_eq_some_iff] at hid
      obtain ⟨b, hb, rfl⟩ := hid
      have hplace : ((Branch.places focus.executor.nextStateId (conditions.length - 1)).map some)[i]? =
          some (some b) := by
        rw [List.getElem?_map, hb, Option.map_some]
      obtain ⟨arm, harm, hout⟩ := htaken.getElem? hi
      obtain rfl := Option.some.inj (hplace.symm.trans harm)
      have hempty := (hout.resolve_left (Option.some_ne_none b).symm).1
      have hgiven := hstock.given (b.name focus.state.id, Seed.share sent i)
        (List.mem_flatMap.2 ⟨(some b, i), List.mem_zipIdx_iff_getElem?.2 hplace, List.mem_singleton_self _⟩)
      have := hf.seeds (b.name focus.state.id)
      rw [hgiven, hempty] at this
      exact List.forall₂_nil_left_iff.1 this

theorem ends_branch_inhibited {conditions : List Expr} (hnamed : focus.executor.Named)
    (hcount : 1 < conditions.length) (hinhibited : focus.Inhibited) :
    (branch conditions).Ends (fun _ ↦ True) focus fun r f ↦ ∀ arms : List (Option Branch), r = .ok arms →
      f.executor.nextStateId = focus.executor.nextStateId ∧
      (∃ sent, Seed.Sent conditions (focus.executor.seedsOf focus.state.id) sent ∧ ∃ chosen < conditions.length,
        List.Forall₂ Seed.Patched (Seed.share sent chosen) (f.executor.seedsOf focus.state.id)) ∧
      ∀ id : StateId, id ≠ focus.state.id → f.executor.seeds[id]? = focus.executor.seeds[id]? := by
  have hconditions : conditions ≠ [] := List.length_pos_iff.1 (Nat.zero_lt_of_lt hcount)
  unfold branch
  rw [if_neg (by simpa using hconditions)]
  refine yields_bind (yields_arms_inhibited hcount hinhibited) ?_
  rintro _ g ⟨hg, chosen, hchosen, rfl⟩
  have hnames := map_fst_stock focus.state.id (fun _ ↦ [])
    ((List.range conditions.length).map fun i ↦ if i = chosen then some .current else none)
  rw [stock_chosen, if_pos hchosen, List.map_singleton] at hnames
  refine (ends_armed hconditions ?_ hg.id_eq (hg.named hnamed) ?_ fun id hid hne ↦ ?_).mono fun r f h arms hr ↦ ?_
  · exact List.mem_map.2 ⟨chosen, List.mem_range.2 hchosen, if_pos rfl⟩
  · rw [← hnames]
    exact List.pairwise_singleton ..
  · rw [← hnames, List.mem_singleton] at hid
    exact absurd hid hne
  · obtain ⟨sent, hsent, -, g', hstock, hf⟩ := h arms hr
    rw [← hnames] at hf
    rw [stock_chosen, if_pos hchosen] at hstock
    rw [hg.seedsOf_eq] at hsent
    refine ⟨?_, ⟨sent, hsent, chosen, hchosen, ?_⟩, fun id hid ↦ ?_⟩
    · rw [hf.next_eq, hstock.next_eq, hg.next_eq, Nat.add_zero]
    · have hgiven : g'.executor.seedsOf focus.state.id = Seed.share sent chosen :=
        hstock.given _ (List.mem_singleton_self _)
      exact hgiven ▸ hf.seeds focus.state.id
    · rw [hf.others id (by simpa using hid), hstock.others id (by simpa using hid), hg.others id List.not_mem_nil]

/-- Where the seeds of a state are after it was divided. A fork, under every policy, hands each of them unchanged to
exactly one of the states that come out of it. A branch that may make copies does so too, except that a seed may be
patched, and gives up no arm that has a seed. A branch to several arms that may not make copies keeps just the seeds
of the arm that it takes. Each seed is sent to the first arm of which it satisfies the condition, or else to any. -/
theorem seeds_of_division (hfit : focus.executor.SeedsFit) (hlt : focus.state.id < focus.executor.nextStateId)
    (hnamed : focus.executor.Named) :
    (∀ (condition : Expr) (internal : Bool) (sides : Sides) (f : Focus σ), condition.WellFormed →
      (fork condition internal).run.run focus = .ok (.ok sides, f) → focus.Hands Eq f) ∧
    ∀ (conditions : List Expr) (arms : List (Option Branch)) (f : Focus σ),
      (branch conditions).run.run focus = .ok (.ok arms, f) →
      (conditions.length ≤ 1 ∨ ¬focus.Inhibited → focus.Hands Seed.Patched f ∧
        ∀ (i : Nat) (id : StateId), arms[i]? = some none → (focus.names f)[i]? = some id →
          f.executor.seedsOf id = []) ∧
      (1 < conditions.length → focus.Inhibited → f.executor.nextStateId = focus.executor.nextStateId ∧
        (∃ sent, Seed.Sent conditions (focus.executor.seedsOf focus.state.id) sent ∧ ∃ chosen < conditions.length,
          List.Forall₂ Seed.Patched (Seed.share sent chosen) (f.executor.seedsOf focus.state.id)) ∧
        ∀ id : StateId, id ≠ focus.state.id → f.executor.seeds[id]? = focus.executor.seeds[id]?) := by
  refine ⟨fun condition internal sides f hcond hrun ↦ ?_, fun conditions arms f hrun ↦ ⟨fun hallowed ↦ ?_,
    fun hcount hinhibited ↦ ?_⟩⟩
  · exact Checked.ends_true_iff.1 (ends_fork_hands hfit hlt hcond).run _ hrun sides rfl
  · exact Checked.ends_true_iff.1 (ends_branch_hands hfit hlt hnamed hallowed).run _ hrun arms rfl
  · exact Checked.ends_true_iff.1 (ends_branch_inhibited hnamed hcount hinhibited).run _ hrun arms rfl

def seeded (config : Config) : Focus Unit where
  executor := {
    program := ⟨#[], #[], #[], 0⟩, config
    solver := { backend := .sampling Executor.samples, state := () }
    allocator := { maxSize := 0 }
    states := {}
    tree := .ofState 0
    seeds := Std.TreeMap.ofList [(0, [Seed.bind { unused := [] } "x" ⟨#[0]⟩])]
    rng := .ofSeed 1 }
  state := { State.start 0 0 0 with node := some ProcessTree.root }

theorem seedsFit_seeded (config : Config) : (seeded config).executor.SeedsFit := by
  intro id seeds h
  simp only [seeded, Std.TreeMap.ofList_singleton, Focus.getElem?_insert_state] at h
  split at h
  · obtain rfl := Option.some.inj h
    subst id
    exact ⟨Nat.zero_lt_one, List.forall_mem_singleton.2 rfl⟩
  · simp at h

theorem exists_run_of_decide {x : Exec Unit α} {f : Focus Unit} {p : Focus Unit → Bool}
    (h : (x.run.run f).toOption.any fun q ↦ q.1.toOption.isSome && p q.2) :
    ∃ (a : α) (g : Focus Unit), x.run.run f = .ok (.ok a, g) ∧ p g := by
  cases hrun : x.run.run f with
  | error _ => simp [hrun, Except.toOption] at h
  | ok q =>
    obtain ⟨_ | a, g⟩ := q
    · simp [hrun, Except.toOption] at h
    · exact ⟨a, g, rfl, by simpa [hrun, Except.toOption] using h⟩

/-- A fork and a branch on whether the input is even hand its seed on. -/
theorem seeds_of_division_even : ∃ (sides : Sides) (f : Focus Unit) (arms : List (Option Branch)) (g : Focus Unit),
    (fork Executor.even false).run.run (seeded {}) = .ok (.ok sides, f) ∧ (seeded {}).Hands Eq f ∧
    (branch [Executor.even, lowBit]).run.run (seeded {}) = .ok (.ok arms, g) ∧ (seeded {}).Hands Seed.Patched g := by
  obtain ⟨sides, f, hfork, -⟩ : ∃ sides f, (fork Executor.even false).run.run (seeded {}) = .ok (.ok sides, f) ∧
      (true : Bool) := exists_run_of_decide (by decide +kernel)
  obtain ⟨arms, g, hbranch, -⟩ : ∃ arms g, (branch [Executor.even, lowBit]).run.run (seeded {}) = .ok (.ok arms, g) ∧
      (true : Bool) := by
    refine exists_run_of_decide ?_
    unfold branch
    simp only [arms_pair]
    decide +kernel
  have hcond : Executor.even.WellFormed := by
    simp [Executor.even, lowBit, Expr.WellFormed, Updates.WellFormed]
  have hallowed : ¬(seeded {}).Inhibited := by simp [Focus.Inhibited, seeded, State.start]
  obtain ⟨hforks, hbranches⟩ := seeds_of_division (seedsFit_seeded {}) (by decide) (by simp [Executor.Named, seeded])
  exact ⟨sides, f, arms, g, hfork, hforks _ _ _ _ hcond hfork, hbranch, ((hbranches _ _ _ hbranch).1 (.inr hallowed)).1⟩

/-- Where copies are inhibited the machine may take the arm for odd inputs, and then no state has the seed. -/
theorem seed_lost_by_branch : ∃ (arms : List (Option Branch)) (f : Focus Unit),
    (branch [Executor.even, lowBit]).run.run (seeded { inhibitForking := true }) = .ok (.ok arms, f) ∧
    (seeded { inhibitForking := true }).executor.seedsOf 0 ≠ [] ∧ f.executor.seeds.isEmpty := by
  obtain ⟨arms, f, hbranch, hempty⟩ : ∃ arms f,
      (branch [Executor.even, lowBit]).run.run (seeded { inhibitForking := true }) = .ok (.ok arms, f) ∧
        f.executor.seeds.isEmpty := exists_run_of_decide (p := fun f ↦ f.executor.seeds.isEmpty) (by decide +kernel)
  exact ⟨arms, f, hbranch, by simp [seeded, Executor.seedsOf], hempty⟩

end Exec

end Symex
