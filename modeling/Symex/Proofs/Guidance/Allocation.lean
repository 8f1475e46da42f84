import Mathlib.Data.List.Perm.Subperm
import Std.Data.String.ToNat
import Symex.Executor.Allocation
import Symex.Executor.Input
import Symex.Proofs.Guidance.Objects

namespace Symex

open Checked

variable {σ α : Type} {o : Outset} {held : List State} {going own p : Prop} {focus : Focus σ}

theorem Focus.Guided.withGrounded {s : State} (hf : focus.Guided o held going own) (hs : s.Grounded o.object)
    (hid : s.id = focus.state.id) (hc : s.constraints = focus.state.constraints) (hlike : s.like ≤ focus.state.like) :
    ({ focus with state := s } : Focus σ).Guided o held going own where
  executor := hf.executor
  apart := by
    have hheld := List.forall_mem_cons.1 hf.apart
    refine List.forall_mem_cons.2 ⟨?_, hheld.2⟩
    rw [hid]
    exact ⟨hheld.1.1, hheld.1.2.1, hs, le_trans hlike hheld.1.2.2.like_le⟩
  rests := hf.rests
  nodup := by
    rw [List.map_cons, hid]
    exact hf.nodup
  keys := by
    rw [List.map_cons, hid]
    exact hf.keys
  going hg := by
    rw [Focus.Going, hid]
    exact hf.going hg
  own ho := by
    rw [Executor.Rests, Executor.Leads, hid, hc]
    exact hf.own ho

namespace Exec

variable {size pointer : Expr}

/-! ## Allocation -/

theorem guides_reserve (size : Nat) (isLocal : Bool) (site : AllocationSite) (name : String) :
    (reserve size isLocal site name : Exec σ _).Guides o p p fun _ ↦ True := by
  intro held focus hf
  refine ends_bind_ok rfl ?_
  dsimp only
  split
  · exact guidesAt_pure hf trivial
  · rename_i object allocator pool _
    have hs := hf.spans.grounded
    have hpool : focus.state.Steady o.object { focus.state with pool } :=
      ⟨⟨rfl, rfl, rfl⟩, hs.valid, hs.satisfiable, hs.closed, hs.names, hs.threads, hs.memory⟩
    have hf' : ({ focus with executor.allocator := allocator } : Focus σ).Guided o held p True :=
      hf.aligns ⟨rfl, rfl, rfl, rfl, rfl, rfl⟩
    exact ends_bind_ok rfl (ends_pure ⟨rfl, fun _ _ ↦ ⟨hf'.withState hpool, trivial⟩, nofun⟩)

section

variable (hall : ∀ x, o.object x)
include hall

theorem guidesAt_bindContents {contents : ObjectState} (isLocal : Bool) (destination : Option Register)
    (base : Nat) (hf : focus.Guided o held p True) (hc : contents.Determined focus.state.like) : (do
      if isLocal then updateState (·.bindLocal contents)
      else updateState fun s ↦ return { s with memory := ← s.memory.bind contents }
      writeResult destination (.pointer base) : Exec σ Unit).GuidesAt o held focus p fun _ _ ↦ True := by
  have hs := hf.spans.grounded
  have hwrite (f : Focus σ) (hf : f.Guided o held p True) :
      (writeResult destination (.pointer base)).GuidesAt o held f p fun _ _ ↦ True :=
    guides_writeResult destination (Expr.determined_pointer _) held f hf
  split
  · refine guidesAt_bind (guidesAt_updateState (P := fun _ ↦ True) ?_ hf) fun _ f hf _ ↦ hwrite f hf
    exact (hs.meets_bindLocal hc (hall _)).mono fun _ h ↦ ⟨h, trivial⟩
  · refine guidesAt_bind (guidesAt_updateState (P := fun _ ↦ True) ?_ hf) fun _ f hf _ ↦ hwrite f hf
    exact Checked.ends_bind (hs.meets_bind hc (hall _)) fun _ h ↦ Checked.ends_pure ⟨h, trivial⟩

theorem guides_allocate (size : Nat) (isLocal : Bool) (destination : Option Register)
    (replaced : Option MemoryObject) :
    (allocate size isLocal destination replaced : Exec σ Unit).Guides o p p fun _ ↦ True := by
  refine guides_bind guides_executor fun e _ ↦ guides_bind (guides_reserve _ _ _ _) fun object? _ ↦ ?_
  cases object? with
  | none => exact guides_writeResult destination (Expr.determined_pointer 0)
  | some object =>
    intro held focus hf
    refine guidesAt_bind (guidesAt_lift (ObjectState.meets_zeroed (L := focus.state.like) object) hf) ?_
    rintro contents focus hf ⟨rfl, hc, rfl⟩
    cases replaced with
    | none => exact ends_bind_ok rfl (guidesAt_bindContents hall isLocal destination _ hf hc)
    | some old =>
      have hrest (x : ObjectState) (hx : x.Determined focus.state.like) : (do
          updateState (·.unbindAll [old])
          if isLocal then updateState (·.bindLocal x)
          else updateState fun s ↦ return { s with memory := ← s.memory.bind x }
          writeResult destination (.pointer contents.object.address) : Exec σ Unit).GuidesAt o held focus p
            fun _ _ ↦ True := by
        refine guidesAt_bind (guidesAt_updateState (P := focus.state.Steady o.object)
          ((hf.spans.grounded.meets_unbindAll [old]).mono fun _ h ↦ ⟨h, h⟩) hf) ?_
        rintro _ f hf ⟨s, rfl, hs⟩
        exact guidesAt_bindContents hall isLocal destination _ hf (hs.like_eq ▸ hx)
      refine ends_bind_ok rfl ?_
      dsimp only
      split
      · rename_i bytes hbytes
        refine guidesAt_bind (guidesAt_lift (meets_copyBytes (hf.spans.grounded.memory.of_find? hbytes).1 hc) hf) ?_
        rintro x f hf ⟨rfl, hx⟩
        exact hrest x hx.1
      · exact ends_bind_ok rfl (hrest contents hc)

omit hall in
theorem guides_shrink (hsize : size.Determined o.apart) (n : Nat) :
    (shrink size n : Exec σ Nat).Guides o p p fun _ ↦ True := by
  induction n using Nat.strongRecOn with
  | ind n ih =>
    rw [shrink]
    split
    · rename_i hlt
      have hhalf : n / 2 < n := Nat.div_lt_self (Nat.zero_lt_of_lt hlt) (by decide)
      refine guides_bind (guides_lift (Expr.meets_constant (L := o.apart) _ _)) fun half hconst ↦ ?_
      refine guides_bind (guides_lift (hconst.1.mkCompare .eq hsize)) fun same hsame ↦ ?_
      refine guides_bind (guides_mayBeTrue hsame.1.wellFormed) fun b _ ↦ ?_
      split
      · exact ih _ hhalf
      · exact guides_pure trivial
    · exact guides_pure trivial

theorem guides_allocateRest (hsize : size.Determined o.apart) (isLocal : Bool) (destination : Option Register)
    (replaced : Option MemoryObject) :
    (allocateRest size isLocal destination replaced : Exec σ Unit).Guides o True False fun _ ↦ True := by
  refine guides_bind (guides_value hsize.wellFormed) fun value hvalue ↦ ?_
  refine guides_bind (guides_lift (hvalue.1.mkCompare .eq hsize)) fun same hsame ↦ ?_
  refine guides_bind (guides_mustBeTrue hsame.1.wellFormed) fun b _ ↦ ?_
  split
  · exact (guides_allocate hall _ _ _ _).relax id False.elim
  · refine guides_bind (guides_lift (Expr.meets_constant (L := o.apart) _ _)) fun limit hlimit ↦ ?_
    refine guides_bind (guides_lift (hlimit.1.mkCompare .ult hsize)) fun huge hhuge ↦ ?_
    refine guides_bind (guides_fork hhuge.1 hhuge.2 true) fun sides hsides ↦ ?_
    refine guides_bind (guides_onSide hsides.1 (guides_writeResult _ (Expr.determined_pointer 0))) fun _ _ ↦ ?_
    exact guides_onSide hsides.2 (guides_bind guides_executor fun _ _ ↦ guides_terminateOnError _ _)

theorem guides_allocateSized (hsize : size.Determined o.apart) (isLocal : Bool) (destination : Option Register)
    (replaced : Option MemoryObject) :
    (allocateSized size isLocal destination replaced : Exec σ Unit).Guides o True False fun _ ↦ True := by
  refine guides_bind (guides_lift (hsize.mkZext 64)) fun size hsize ↦ ?_
  refine guides_bind (guides_toUnique hsize.1) fun size hsize ↦ ?_
  split
  · exact (guides_allocate hall _ _ _ _).relax id False.elim
  · refine guides_bind (guides_value hsize.1.wellFormed) fun value _ ↦ ?_
    refine guides_bind (guides_shrink hsize.1 _) fun n _ ↦ ?_
    refine guides_bind (guides_lift (Expr.meets_constant (L := o.apart) _ _)) fun fixed hfixed ↦ ?_
    refine guides_bind (guides_lift (hfixed.1.mkCompare .eq hsize.1)) fun same hsame ↦ ?_
    refine guides_bind (guides_fork hsame.1 hsame.2 true) fun sides hsides ↦ ?_
    refine guides_bind (guides_onSide hsides.1 (guides_allocate hall _ _ _ _)) fun _ _ ↦ ?_
    exact guides_onSide hsides.2 (guides_allocateRest hall hsize.1 _ _ _)

omit hall in
theorem guides_demandHeap (object : MemoryObject) :
    (demandHeap object : Exec σ Unit).Guides o p p fun _ ↦ True := by
  have hglobal : (if object.isGlobal then fail .freeOfGlobal else pure () : Exec σ Unit).Guides o p p
      fun _ ↦ True := by
    split
    · exact guides_fail _
    · exact guides_pure trivial
  unfold demandHeap
  dsimp only
  split
  · exact guides_fail_bind _
  · exact hglobal

omit hall in
theorem guides_onObjects {work : MemoryObject → Exec σ Unit} {side : Option Branch} {q : Prop}
    (hside : o.FreshAt side) (hpointer : pointer.Determined o.apart) (operation : String)
    (hwork : ∀ x, (work x).Guides o True q fun _ ↦ True) :
    (onObjects side pointer operation work).Guides o p False fun _ ↦ True := by
  cases side with
  | none => exact (guides_pure trivial).relax id False.elim
  | some side =>
    refine guides_bind (guides_onBranch (hside _ rfl) (guides_resolveExact hpointer operation)) fun found hfound ↦ ?_
    refine guides_bind (q := False) (guides_forIn fun q hq ↦ ?_) fun _ _ ↦ guides_pure trivial
    obtain ⟨branch, object⟩ := q
    refine guides_bind (guides_onSide (fun b hb ↦ ?_) (hwork object)) fun _ _ ↦ guides_pure rfl
    obtain rfl := Option.some.inj hb
    cases branch with
    | current => exact hside _ rfl
    | forked id =>
      cases found with
      | none => cases hq
      | some l => exact hfound l rfl _ hq

omit hall in
theorem guides_unbindAll (objects : List MemoryObject) :
    (updateState (·.unbindAll objects) : Exec σ Unit).Guides o p p fun _ ↦ True :=
  guides_updateState fun _ hs ↦ hs.grounded.meets_unbindAll objects

omit hall in
theorem guides_free (hpointer : pointer.Determined o.apart) (destination : Option Register) :
    (free pointer destination : Exec σ Unit).Guides o True False fun _ ↦ True := by
  have hnull {p : Prop} : (writeResult destination (.pointer 0) : Exec σ Unit).Guides o p p fun _ ↦ True :=
    guides_writeResult _ (Expr.determined_pointer 0)
  have htruth := hpointer.wellFormed.isZero
  refine guides_bind (guides_fork hpointer.isZero htruth.2 true) fun sides hsides ↦ ?_
  refine guides_bind (guides_onSide hsides.1 hnull) fun _ _ ↦ ?_
  refine guides_onObjects (q := True) hsides.2 hpointer _ fun object ↦ ?_
  exact guides_bind (guides_demandHeap object) fun _ _ ↦ guides_bind (guides_unbindAll _) fun _ _ ↦ hnull

theorem guides_reallocate (hpointer : pointer.Determined o.apart) (hsize : size.Determined o.apart)
    (destination : Option Register) :
    (reallocate pointer size destination : Exec σ Unit).Guides o True False fun _ ↦ True := by
  refine guides_bind (guides_lift (hsize.mkZext 64)) fun size hsize ↦ ?_
  refine guides_bind (guides_fork hsize.1.isZero hsize.1.wellFormed.isZero.2 true) fun sides hsides ↦ ?_
  refine guides_bind (guides_onSide hsides.1 (guides_free hpointer destination)) fun _ _ ↦
    guides_onSide (q := False) hsides.2 ?_
  refine guides_bind (guides_fork hpointer.isZero hpointer.wellFormed.isZero.2 true) fun sides hsides ↦ ?_
  refine guides_bind (guides_onSide hsides.1 (guides_allocateSized hall hsize.1 _ _ _)) fun _ _ ↦ ?_
  refine guides_onObjects (q := False) hsides.2 hpointer _ fun object ↦ ?_
  exact guides_bind (guides_demandHeap object) fun _ _ ↦ guides_allocateSized hall hsize.1 _ _ _

/-! ## Inputs -/

theorem guidesAt_replaceContents {contents : ObjectState} (object : MemoryObject) (hf : focus.Guided o held p True)
    (hc : contents.Determined focus.state.like) :
    (replaceContents object contents).GuidesAt o held focus p fun _ _ ↦ True := by
  have hs := hf.spans.grounded
  refine (guidesAt_updateState (P := fun _ ↦ True) ?_ hf).mono id fun _ _ _ ↦ trivial
  exact Checked.ends_bind hs.memory.meets_unbind fun _ hm ↦ Checked.ends_bind (hm.meets_bind hc (hall _)) fun _ hm ↦
    Checked.ends_pure ⟨hs.withMemory hm, trivial⟩

end

theorem freshName_notMem (taken : List String) (name : String) : freshName taken name ∉ taken := by
  unfold freshName
  dsimp only
  generalize hl : (name :: (List.range taken.length).map fun k ↦ name ++ "_" ++ decimal (k + 1)) = candidates
  cases hfound : candidates.find? (!taken.contains ·) with
  | some n =>
    have := List.find?_some hfound
    simpa using this
  | none =>
    have hsub : candidates ⊆ taken := fun n hn ↦ by simpa using List.find?_eq_none.1 hfound n hn
    have hnodup : candidates.Nodup := by
      have hne (k : Nat) : name ++ "_" ++ decimal (k + 1) ≠ name := by
        intro heq
        have := congrArg String.length heq
        simp only [String.length_append] at this
        have hone : "_".length = 1 := rfl
        omega
      rw [← hl, List.nodup_cons]
      refine ⟨fun hmem ↦ ?_, (List.nodup_map_iff_inj_on List.nodup_range).2 fun i _ j _ heq ↦ ?_⟩
      · obtain ⟨k, -, hk⟩ := List.mem_map.1 hmem
        exact hne k hk
      · have hdecimal : decimal (i + 1) = decimal (j + 1) := by simpa using heq
        exact Nat.succ.inj (Nat.repr_injective hdecimal)
    have hlength := (hnodup.subperm hsub).length_le
    rw [← hl] at hlength
    simp only [List.length_cons, List.length_map, List.length_range] at hlength
    omega

theorem solves_of_seedInput {config : Config} {array : NamedArray} {seed seed' : Seed} {arrays : List NamedArray}
    {c : ConstraintSet} (h : seedInput config array seed = .ok seed') (hc : c.ClosedOn arrays)
    (hfresh : array.name ∉ arrays.map (·.name)) (hseed : Inputs.all.Solves seed.assignment c) :
    Inputs.all.Solves seed'.assignment c := by
  have hbind (s : Seed) (bytes : ByteArray) (hs : s.assignment = seed.assignment) :
      Inputs.all.Solves (s.bind array.name bytes).assignment c := by
    change Inputs.all.Solves (s.assignment.bind array.name bytes) c
    rw [hs]
    exact hc hseed.possible (Assignment.sameOn_bind bytes hfresh) hseed
  unfold seedInput at h
  split at h
  · split at h
    · obtain rfl := Except.ok.inj h
      exact hbind seed _ rfl
    · split at h
      · exact Except.ok.inj h ▸ hseed
      · cases h
  · rename_i input next hnext
    have hsame : next.assignment = seed.assignment := by
      obtain ⟨_, -, hnext⟩ := Option.map_eq_some_iff.1 hnext
      cases hnext
      rfl
    dsimp only at h
    split at h
    · cases h
    · split at h
      · obtain rfl := Except.ok.inj h
        exact hbind next _ hsame
      · obtain rfl := Except.ok.inj h
        exact hbind next _ hsame

theorem guidesAt_seedInputs_go {array : NamedArray} {arrays : List NamedArray}
    (hf : focus.Guided o held True True) (hc : focus.state.constraints.ClosedOn arrays)
    (hfresh : array.name ∉ arrays.map (·.name)) (config : Config) {seeds done : List Seed}
    (hleads : ∀ seed ∈ done ++ seeds, Inputs.all.Solves seed.assignment focus.state.constraints) :
    (seedInputs.go array config focus.state.id done seeds : Exec σ Unit).GuidesAt o held focus True
      fun _ _ ↦ True := by
  induction seeds generalizing done with
  | nil =>
    unfold seedInputs.go
    refine ends_modifyExecutor ⟨rfl, fun _ _ ↦ ⟨?_, trivial⟩, fun _ h ↦ by cases h⟩
    refine hf.setSeeds_of_mem List.mem_cons_self fun seed hseed ↦ hleads seed ?_
    rwa [List.append_nil, ← List.mem_reverse]
  | cons seed rest ih =>
    unfold seedInputs.go
    split
    · rename_i seed' hseed'
      refine ih fun s hs ↦ ?_
      have hs : s = seed' ∨ s ∈ done ∨ s ∈ rest := by simpa [or_assoc] using hs
      obtain rfl | hs := hs
      · exact solves_of_seedInput hseed' hc hfresh (hleads seed (by simp))
      · exact hleads s (by simpa using hs.imp_right .inr)
    · exact guidesAt_fail _ hf

theorem guidesAt_seedInputs {array : NamedArray} {arrays : List NamedArray} (hf : focus.Guided o held True True)
    (hc : focus.state.constraints.ClosedOn arrays) (hfresh : array.name ∉ arrays.map (·.name)) :
    (seedInputs array).GuidesAt o held focus True fun _ _ ↦ True := by
  refine ends_bind_ok rfl ?_
  dsimp only
  split
  · rename_i seeds hseeds
    exact ends_bind_ok rfl (ends_bind_ok rfl (guidesAt_seedInputs_go hf hc hfresh _ (hf.leads seeds hseeds)))
  · exact guidesAt_pure hf trivial

section

variable (hall : ∀ x, o.object x)
include hall

theorem guidesAt_newInput (object : MemoryObject) (name : String) (hf : focus.Guided o held True True) : (do
      let taken := (← state).arrays.map (·.name)
      let array := NamedArray.symbolic (freshName taken name) object.size
      replaceContents object (← ObjectState.ofArray object array)
      updateState fun s ↦ return s.addSymbolic object array
      seedInputs array : Exec σ Unit).GuidesAt o held focus True fun _ _ ↦ True := by
  have hs := hf.spans.grounded
  refine ends_bind_ok rfl ?_
  dsimp only
  generalize harray : NamedArray.symbolic (freshName (focus.state.arrays.map (·.name)) name) object.size = array
  have hfresh : array.name ∉ focus.state.arrays.map (·.name) := harray ▸ freshName_notMem _ name
  have hle : Likeness.on (focus.state.arrays ++ [array]) focus.state.constraints ≤ focus.state.like := fun a b hab ↦
    ⟨fun A hA ↦ hab.1 A (List.mem_append_left _ hA), hab.2⟩
  refine guidesAt_bind (guidesAt_lift (ObjectState.meets_ofArray
    (L := .on (focus.state.arrays ++ [array]) focus.state.constraints) object fun a b hab i hi ↦ ?_) hf) ?_
  · refine hab.1 array (List.mem_append_right _ (List.mem_singleton_self _)) i ?_
    rw [← harray]
    exact hi
  rintro contents focus hf ⟨rfl, hc, -⟩
  -- the object and the input come up together
  refine ends_bind (P := fun r f ↦ r = .ok () ∧ ∃ m, f = { focus with state := { focus.state with memory := m } } ∧
    m.Determined (.on (focus.state.arrays ++ [array]) focus.state.constraints) o.object)
    (ends_updateState ?_) ?_ fun _ _ h ↦ nomatch h.1
  · exact Checked.ends_bind (hs.memory.mono hle).meets_unbind fun _ hm ↦
      Checked.ends_bind (hm.meets_bind hc (hall _)) fun m hm ↦ Checked.ends_pure ⟨rfl, m, rfl, hm⟩
  · rintro _ _ ⟨-, m, rfl, hm⟩
    have hgrounded := hs.addSymbolic object hm hfresh
    refine ends_bind_ok rfl (guidesAt_seedInputs ?_ hs.closed hfresh)
    refine hf.withGrounded hgrounded rfl rfl fun a b hab ↦ hle ⟨?_, hab.2⟩
    have hsame := hab.1
    simp only [State.addSymbolic, State.arrays, List.map_append, List.map_singleton] at hsame
    exact hsame

theorem guides_replayInput (object : MemoryObject) (inputs : List TestInput) :
    (replayInput object inputs : Exec σ Unit).Guides o p p fun _ ↦ True := by
  cases inputs with
  | nil => exact guides_fail _
  | cons input rest =>
    have hreplace : (do
        replaceContents object (← ObjectState.withBytes object input.bytes) : Exec σ Unit).Guides o p p
          fun _ ↦ True := by
      intro held focus hf
      refine guidesAt_bind
        (guidesAt_lift (ObjectState.meets_withBytes (L := focus.state.like) object input.bytes) hf) ?_
      rintro contents f hf ⟨rfl, hc, -⟩
      exact guidesAt_replaceContents hall object hf hc
    refine guides_bind (guides_modifyExecutor fun _ ↦ ⟨rfl, rfl, rfl, rfl, rfl, rfl⟩) fun _ _ ↦ ?_
    split
    · exact guides_fail_bind _
    · exact hreplace

theorem guides_makeObjectSymbolic (object : MemoryObject) (name : String) (hsize : size.Determined o.apart) :
    (makeObjectSymbolic object name size : Exec σ Unit).Guides o True True fun _ ↦ True := by
  unfold makeObjectSymbolic
  refine guides_bind guides_state fun s _ ↦ ?_
  dsimp only
  split
  · exact guides_fail_bind _
  · refine guides_bind (guides_lift (hsize.mkZext 64)) fun size hsize ↦ ?_
    refine guides_bind (guides_lift ((Expr.determined_pointer _).mkCompare .eq hsize.1)) fun fits hfits ↦ ?_
    refine guides_bind (guides_mustBeTrue hfits.1.wellFormed) fun b _ ↦ ?_
    split
    · refine guides_bind guides_executor fun e _ ↦ ?_
      split
      · exact guides_replayInput hall object _
      · exact fun _ _ hf ↦ guidesAt_newInput hall object name hf
    · exact guides_fail_bind _

theorem guides_makeSymbolic (name : String) (hpointer : pointer.Determined o.apart) (hsize : size.Determined o.apart) :
    (makeSymbolic name pointer size : Exec σ Unit).Guides o p False fun _ ↦ True := by
  refine guides_bind (guides_resolveExact hpointer _) fun resolved hresolved ↦ ?_
  refine guides_bind (guides_forIn fun q hq ↦ ?_) fun _ _ ↦ guides_pure trivial
  refine guides_bind (guides_onSide (fun b hb ↦ ?_) (guides_makeObjectSymbolic hall q.2 name hsize)) fun _ _ ↦
    guides_pure rfl
  exact Option.some.inj hb ▸ hresolved q hq

end

end Exec

end Symex
