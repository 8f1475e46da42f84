import Symex.Proofs.Guidance.Work
import Symex.Proofs.Lineage.Accounts

namespace Symex

open Checked

variable {σ α β : Type} {a b : Assignment} {o : Outset} {held : List State} {going own p : Prop}
  {focus : Focus σ} {e condition : Expr}

theorem Assignment.byte?_of_contents {A : NamedArray} {bytes : ByteArray} {i : Nat} (ha : a.free = true)
    (hget : b.get? A.name = some bytes) (hi : bytes[i]? = a.byte? A i) : a.byte? A i = b.byte? A i := by
  cases hA : A.byte? i with
  | some v => simp only [byte?, hA]
  | none =>
    obtain ⟨v, hv⟩ : ∃ v, a.byte? A i = some v := by
      cases h : (a.get? A.name).bind (·[i]?) <;> simp [byte?, hA, h, ha]
    rw [hv] at hi ⊢
    simp [byte?, hA, hget, hi]

theorem Assignment.sameOn_bind {arrays : List NamedArray} {name : String} (bytes : ByteArray)
    (h : name ∉ arrays.map (·.name)) : a.SameOn arrays (a.bind name bytes) := by
  intro A hA i _
  have hne : name ≠ A.name := fun heq ↦ h (heq ▸ List.mem_map_of_mem hA)
  refine byte?_congr rfl ?_
  rw [byteAt, byteAt, get?_bind, if_neg hne]

namespace Seed

def bindAll (bindings : List (NamedArray × ByteArray)) (seed : Seed) : Seed :=
  bindings.foldl (fun seed (array, bytes) ↦ seed.bind array.name bytes) seed

variable {bindings : List (NamedArray × ByteArray)} {seed : Seed}

theorem free_bindAll : (seed.bindAll bindings).assignment.free = seed.assignment.free := by
  induction bindings generalizing seed with
  | nil => rfl
  | cons p ps ih => exact ih

theorem get?_bindAll_of_notMem {name : String} (h : name ∉ bindings.map (·.1.name)) :
    (seed.bindAll bindings).assignment.get? name = seed.assignment.get? name := by
  induction bindings generalizing seed with
  | nil => rfl
  | cons p ps ih =>
    rw [List.map_cons, List.mem_cons, not_or] at h
    refine (ih h.2).trans ?_
    change (seed.assignment.bind p.1.name p.2).get? name = _
    rw [Assignment.get?_bind, if_neg (Ne.symm h.1)]

theorem get?_bindAll (hnd : (bindings.map (·.1.name)).Nodup) {A : NamedArray} {bytes : ByteArray}
    (h : (A, bytes) ∈ bindings) : (seed.bindAll bindings).assignment.get? A.name = some bytes := by
  induction bindings generalizing seed with
  | nil => cases h
  | cons p ps ih =>
    rw [List.map_cons, List.nodup_cons] at hnd
    obtain rfl | h := List.mem_cons.1 h
    · refine (get?_bindAll_of_notMem hnd.1).trans ?_
      change (seed.assignment.bind A.name bytes).get? A.name = _
      rw [Assignment.get?_bind, if_pos rfl]
    · exact ih hnd.2 h

theorem sameOn_bindAll {arrays : List NamedArray} {values : List ByteArray} (ha : a.free = true)
    (hnd : (arrays.map (·.name)).Nodup)
    (h : List.Forall₂ (fun A bytes ↦ ∀ i < A.size, bytes[i]? = a.byte? A i) arrays values) :
    a.SameOn arrays (seed.bindAll (arrays.zip values)).assignment := by
  have hnames : (arrays.zip values).map (·.1.name) = arrays.map (·.name) := by
    have hfst : (arrays.zip values).map Prod.fst = arrays := List.map_fst_zip (Nat.le_of_eq h.length_eq)
    conv_rhs => rw [← hfst, List.map_map]
    rfl
  intro A hA i hi
  obtain ⟨n, hn, rfl⟩ := List.mem_iff_getElem.1 hA
  have hn' : n < values.length := h.length_eq ▸ hn
  have hmem : (arrays[n], values[n]) ∈ arrays.zip values := by
    refine List.mem_iff_getElem.2 ⟨n, ?_, List.getElem_zip⟩
    rw [List.length_zip]
    exact Nat.lt_min.2 ⟨hn, hn'⟩
  exact Assignment.byte?_of_contents ha (get?_bindAll (hnames.symm ▸ hnd) hmem) ((h.get hn hn') i hi)

end Seed

theorem Solver.ends_initialValues {c : ConstraintSet} (hc : c.Valid) (hsat : Inputs.all.Satisfiable c)
    (arrays : List NamedArray) {s : Solver σ} (hs : s.backend.Supplies) :
    Ends (fun _ ↦ True) ((initialValues c arrays : Ask σ _).run.run s) fun r ↦ s.Same r.2 ∧
      ∀ answer, r.1 = .ok answer → ∃ values, answer = some values ∧ ∃ a, Inputs.all.Solves a c ∧
        List.Forall₂ (fun A bytes ↦ ∀ i < A.size, bytes[i]? = a.byte? A i) arrays values := by
  unfold initialValues
  split
  · rename_i hempty
    obtain ⟨a, ha⟩ := hsat
    obtain rfl := List.isEmpty_iff.1 hempty
    exact Checked.ends_pure ⟨.refl s, by rintro _ ⟨⟩; exact ⟨[], rfl, a, ha, .nil⟩⟩
  · have hq : Query.Sensible Inputs.all ⟨c, .bool false, s.timeout⟩ :=
      ⟨hc, hsat, Expr.bool_wellFormed false⟩
    refine Checked.ends_of_eq (a := ((s.backend.initialValues ⟨c, .bool false, s.timeout⟩ arrays s.state).1, { s with
      state := (s.backend.initialValues ⟨c, .bool false, s.timeout⟩ arrays s.state).2
      queries := s.queries + 1 })) rfl ⟨⟨rfl, rfl, rfl, Nat.le_refl _⟩, fun answer h ↦ ?_⟩
    cases answer with
    | none =>
      obtain ⟨a, ha⟩ := hsat
      exact absurd (by simp [Expr.bool]) (hs.nothing _ _ _ hq h a ha)
    | some values =>
      obtain ⟨a, ha, -, hvalues⟩ := hs.contents _ _ _ _ hq h
      exact ⟨values, rfl, a, ha, hvalues⟩

namespace Focus.Guided

theorem withSeeds {seeds : Std.TreeMap StateId (List Seed)} (hf : focus.Guided o held going own)
    (h : ∀ (id : StateId) (l : List Seed), seeds[id]? = some l → focus.executor.seeds[id]? = some l ∨
      (id ∈ (focus.state :: held).map (·.id) ∨ ∃ s, focus.executor.states[id]? = some s) ∧
        (id ∈ focus.executor.removed ∨
          ∀ s, s ∈ focus.state :: held ∨ focus.executor.states[id]? = some s → s.id = id →
            ∀ seed ∈ l, Inputs.all.Solves seed.assignment s.constraints)) :
    ({ focus with executor := { focus.executor with seeds } } : Focus σ).Guided o held going own := by
  have hrests : ∀ s, s ∈ focus.state :: held ∨ focus.executor.states[s.id]? = some s →
      focus.executor.Rests s → ({ focus.executor with seeds } : Executor σ).Rests s := by
    refine fun s hs hold ↦ or_iff_not_imp_left.2 fun hgoing l hl ↦ ?_
    obtain hl | hl := h s.id l hl
    · exact hold.resolve_left hgoing l hl
    · exact hl.2.resolve_left hgoing s hs rfl
  refine ⟨⟨hf.executor.exact, hf.executor.supplies, hf.executor.constants, hf.executor.next_le, fun id s hs ↦ ?_⟩,
    hf.apart, fun s hs ↦ ?_, hf.nodup, fun id l hl ↦ ?_, hf.going, fun ho ↦ ?_⟩
  · have hlive := hf.executor.states id s hs
    exact ⟨hlive.id_eq, hlive.lt, hlive.grounded, hlive.spans,
      hrests s (.inr (hlive.id_eq.symm ▸ hs)) hlive.rests⟩
  · exact hrests s (.inl (List.mem_cons_of_mem _ hs)) (hf.rests s hs)
  · obtain hl | hl := h id l hl
    · exact hf.keys id l hl
    · exact hl.1
  · exact hrests _ (.inl List.mem_cons_self) (hf.own ho)

theorem withOwn (hf : focus.Guided o held going own) (h : focus.executor.Rests focus.state) :
    focus.Guided o held going True :=
  ⟨hf.executor, hf.apart, hf.rests, hf.nodup, hf.keys, hf.going, fun _ ↦ h⟩

theorem eq_of_id_eq {s : State} (hf : focus.Guided o held going own)
    (hs : s ∈ focus.state :: held ∨ focus.executor.states[focus.state.id]? = some s)
    (hid : s.id = focus.state.id) : s = focus.state := by
  obtain hs | hs := hs
  · obtain rfl | hs := List.mem_cons.1 hs
    · rfl
    · have hnodup := hf.nodup
      rw [List.map_cons, List.nodup_cons] at hnodup
      exact absurd (hid ▸ List.mem_map_of_mem hs) hnodup.1
  · rw [(hf.apart _ List.mem_cons_self).2.1] at hs
    cases hs

theorem narrow {s : State} (hf : focus.Guided o held going own) (hs : focus.state.Narrows o.object e s) :
    ({ focus with state := s } : Focus σ).Guided o held going False := by
  have hheld := List.forall_mem_cons.1 hf.apart
  refine ⟨hf.executor, List.forall_mem_cons.2 ⟨?_, hheld.2⟩, hf.rests, ?_, ?_, fun hg ↦ ?_, nofun⟩
  · rw [hs.id_eq]
    exact ⟨hheld.1.1, hheld.1.2.1, hs.grounded, le_trans hs.like_le hheld.1.2.2.like_le⟩
  · rw [List.map_cons, hs.id_eq]
    exact hf.nodup
  · rw [List.map_cons, hs.id_eq]
    exact hf.keys
  · rw [Focus.Going, hs.id_eq]
    exact hf.going hg

end Focus.Guided

namespace Exec

theorem ends_query_contents (hf : focus.Guided o held p own) :
    (query (Solver.initialValues · focus.state.arrays)).Ends (fun _ ↦ True) focus fun r f ↦
      (∃ solver, focus.executor.solver.Same solver ∧ f = focus.withSolver solver) ∧
      (∀ answer, r = .ok answer → ∃ values, answer = some values ∧ ∃ a,
        Inputs.all.Solves a focus.state.constraints ∧
        List.Forall₂ (fun A bytes ↦ ∀ i < A.size, bytes[i]? = a.byte? A i) focus.state.arrays values) ∧
      ∀ e, r = .error e → e.payload.isFatal = false := by
  have hs := hf.spans.grounded
  have hsolver := Solver.ends_initialValues hs.valid hs.satisfiable focus.state.arrays hf.executor.supplies
  refine ends_bind (ends_ask_any (Q := fun r f ↦ ∃ answer solver, r = .ok answer ∧
    focus.executor.solver.Same solver ∧ f = focus.withSolver solver ∧ ∀ values?, answer = .ok values? →
      ∃ values, values? = some values ∧ ∃ a, Inputs.all.Solves a focus.state.constraints ∧ List.Forall₂
        (fun A bytes ↦ ∀ i < A.size, bytes[i]? = a.byte? A i) focus.state.arrays values)
    (hsolver.mono fun r hr ↦ ⟨r.1, r.2, rfl, hr.1, rfl, hr.2⟩)) ?_ ?_
  · rintro answer _ ⟨_, solver, ⟨⟩, hsame, rfl, hvalues⟩
    cases answer with
    | ok values? => exact ends_pure ⟨⟨solver, hsame, rfl⟩, by rintro _ ⟨⟩; exact hvalues _ rfl, nofun⟩
    | error _ => exact ends_fail ⟨⟨solver, hsame, rfl⟩, nofun, by rintro _ ⟨⟩; rfl⟩
  · rintro _ _ ⟨_, _, ⟨⟩, -⟩

theorem guidesAt_patchSeeds (hf : focus.Guided o held p False)
    (hold : focus.state.id ∈ focus.executor.removed ∨
      ∀ seeds, focus.executor.seeds[focus.state.id]? = some seeds → ∀ seed ∈ seeds,
        seed.assignment.free = true ∧
          (seed.satisfies condition → Inputs.all.Solves seed.assignment focus.state.constraints)) :
    (patchSeeds condition).GuidesAt o held focus p fun _ f ↦ f.state = focus.state := by
  have hdone (h : focus.executor.Rests focus.state) :
      (pure () : Exec σ Unit).GuidesAt o held focus p fun _ f ↦ f.state = focus.state :=
    guidesAt_pure (hf.withOwn h) rfl
  refine ends_bind_ok rfl ?_
  dsimp only
  split
  · rename_i seeds hseeds
    split
    · rename_i hall
      refine hdone (hold.imp_right fun hold l hl seed hseed ↦ ?_)
      obtain rfl := Option.some.inj (hseeds.symm.trans hl)
      exact (hold _ hseeds seed hseed).2 (List.all_eq_true.1 hall seed hseed)
    · refine ends_bind_ok rfl (ends_bind (ends_query_contents hf) (fun answer f h ↦ ?_) fun e f h ↦ ?_)
      · obtain ⟨⟨solver, hsame, rfl⟩, hanswer, -⟩ := h
        obtain ⟨values, rfl, a, ha, hvalues⟩ := hanswer answer rfl
        have hf' := hf.withSolver hsame
        -- patched or not, the seeds solve the constraints
        have hpatched : focus.state.id ∈ focus.executor.removed ∨ ∀ seed ∈ seeds.map (fun seed ↦
            if seed.satisfies condition then seed else seed.bindAll (focus.state.arrays.zip values)),
            Inputs.all.Solves seed.assignment focus.state.constraints := by
          refine hold.imp_right fun hold patched hpatch ↦ ?_
          obtain ⟨seed, hseed, rfl⟩ := List.mem_map.1 hpatch
          obtain ⟨hfree, hsolves⟩ := hold seeds hseeds seed hseed
          split
          · exact hsolves ‹_›
          · have hs := hf.spans.grounded
            exact hs.closed (Seed.free_bindAll.trans hfree) (Seed.sameOn_bindAll ha.possible hs.names hvalues) ha
        refine ends_modifyExecutor ⟨rfl, fun _ _ ↦ ⟨(hf'.withSeeds fun id l hl ↦ ?_).withOwn ?_, rfl⟩, nofun⟩
        · rw [Focus.getElem?_insert_state] at hl
          split at hl
          · rename_i heq
            subst heq
            obtain rfl := Option.some.inj hl
            refine .inr ⟨.inl List.mem_cons_self, hpatched.imp_right fun h s hs hid ↦ ?_⟩
            rw [hf'.eq_of_id_eq hs hid]
            exact h
          · exact .inl hl
        · refine hpatched.imp_right fun h l hl ↦ ?_
          have hl : (focus.executor.seeds.insert focus.state.id _)[focus.state.id]? = some l := hl
          rw [Std.TreeMap.getElem?_insert_self] at hl
          exact Option.some.inj hl ▸ h
      · obtain ⟨⟨solver, hsame, rfl⟩, -, hfatal⟩ := h
        refine ⟨rfl, nofun, ?_⟩
        rintro _ ⟨⟩
        exact (hf.withSolver hsame).mono nofun fun h ↦ by rw [hfatal _ rfl] at h; cases h
  · rename_i hnone
    refine hdone (.inr fun l hl ↦ absurd hl ?_)
    exact fun h ↦ hnone l h

theorem guidesAt_addConstraint (hf : focus.Guided o held p True) (he : e.Determined o.apart) (hw : e.width = 1)
    (hsat : ∃ a, Inputs.all.Solves a focus.state.constraints ∧ a.val e ≠ 0) :
    (addConstraint e).GuidesAt o held focus p fun _ f ↦
      ∀ a, Inputs.all.Solves a f.state.constraints ↔
        Inputs.all.Solves a focus.state.constraints ∧ a.val e ≠ 0 := by
  have hs := hf.spans
  refine ends_bind (P := fun r f ↦ r = .ok () ∧ ∃ s, f = { focus with state := s } ∧
    focus.state.Narrows o.object e s) (ends_updateState ?_) (fun _ f h ↦ ?_) fun _ _ h ↦ nomatch h.1
  · exact (hs.grounded.meets_addConstraint (he.mono hs.like_le) hw hsat).mono fun s hs ↦ ⟨rfl, s, rfl, hs⟩
  · obtain ⟨-, s, rfl, hs⟩ := h
    refine Ends.mono (guidesAt_patchSeeds (hf.narrow hs) ?_) fun r f h ↦
      ⟨h.1.trans hs.id_eq, fun a ha ↦ ⟨(h.2.1 a ha).1, ?_⟩, h.2.2⟩
    · change s.id ∈ focus.executor.removed ∨ _
      rw [hs.id_eq]
      refine (hf.own trivial).imp_right fun hleads seeds hseeds seed hseed ↦ ?_
      have hsolves := hleads seeds (hs.id_eq ▸ hseeds) seed hseed
      refine ⟨hsolves.possible, fun hsat ↦ (hs.solves_iff _).2 ⟨hsolves, ?_⟩⟩
      exact (Seed.satisfies_iff hsolves.possible).1 hsat
    · have hstate : f.state = s := (h.2.1 a ha).2
      show ∀ a, Inputs.all.Solves a f.state.constraints ↔ _
      rw [hstate]
      exact hs.solves_iff

end Exec

end Symex
