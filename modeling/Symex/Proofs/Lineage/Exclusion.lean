import Symex.Proofs.Lineage.Moves

namespace Symex

variable {σ : Type} {I : Inputs}

namespace Focus

variable {f g h : Focus σ} {id : StateId}

/-- The live state that is called `id` has the solution `a`. -/
def Holds (I : Inputs) (f : Focus σ) (id : StateId) (a : Assignment) : Prop :=
  id ∉ f.executor.removed ∧
    (f.state.id = id ∧ I.Solves a f.state.constraints ∨
      ∃ s, f.executor.states[id]? = some s ∧ I.Solves a s.constraints)

/-- A solution of a live state of `g` is one of a live state of `f`, and one of two live states of `g` is
one of two of `f`. -/
structure Refines (I : Inputs) (f g : Focus σ) : Prop where
  one : ∀ a id, g.Holds I id a → ∃ i, f.Holds I i a
  two : ∀ a id id', id ≠ id' → g.Holds I id a → g.Holds I id' a →
    ∃ i i', i ≠ i' ∧ f.Holds I i a ∧ f.Holds I i' a

theorem Refines.trans (hf : f.Refines I g) (hg : g.Refines I h) : f.Refines I h where
  one a id hid := by
    obtain ⟨i, hi⟩ := hg.one a id hid
    exact hf.one a i hi
  two a id id' hne hid hid' := by
    obtain ⟨i, i', hne, hi, hi'⟩ := hg.two a id id' hne hid hid'
    exact hf.two a i i' hne hi hi'

theorem refines_of_origin (horigin : ∀ a, ∃ origin : StateId → StateId,
      (∀ id, g.Holds I id a → f.Holds I (origin id) a) ∧
      ∀ id id', g.Holds I id a → g.Holds I id' a → origin id = origin id' → id = id') :
    f.Refines I g where
  one a id hid := by
    obtain ⟨origin, horigin, -⟩ := horigin a
    exact ⟨origin id, horigin id hid⟩
  two a id id' hne hid hid' := by
    obtain ⟨origin, horigin, hinj⟩ := horigin a
    exact ⟨origin id, origin id', fun heq ↦ hne (hinj id id' hid hid' heq), horigin id hid, horigin id' hid'⟩

theorem Own.refines (h : f.Own I g) : f.Refines I g := by
  refine refines_of_origin fun a ↦ ⟨fun id ↦ id, fun id hid ↦ ?_, fun _ _ _ _ heq ↦ heq⟩
  refine ⟨fun hmem ↦ hid.1 (h.removed_sub id hmem), ?_⟩
  obtain ⟨heq, ha⟩ | ⟨s, hs, ha⟩ := hid.2
  · exact .inl ⟨h.id_eq ▸ heq, h.narrower a ha⟩
  · exact .inr ⟨s, h.states_eq id ▸ hs, ha⟩

/-- The place of a state that is divided, or of a part of it. -/
def place (f : Focus σ) (id : StateId) : Branch :=
  if id = f.state.id then .current else .forked id

theorem Divide.refines {bound : Branch → Assignment → Prop} (h : f.Divide I False bound g)
    (hf : f.Tidy) : f.Refines I g := by
  obtain ⟨hgoing, h, hwithin, hapart⟩ := h
  -- what is at a place other than those of old states is within its bound
  have hbound : ∀ {a id}, g.Holds I id a → (id < f.executor.nextStateId → id = f.state.id) →
      bound (f.place id) a := by
    intro a id hid hpart
    unfold place
    obtain ⟨heq, ha⟩ | ⟨s, hs, ha⟩ := hid.2
    · rw [if_pos (heq.symm.trans h.id_eq)]
      exact h.own (show g.state.id ∉ _ from heq ▸ hid.1) a ha
    · by_cases hlt : id < f.executor.nextStateId
      · rw [h.old id hlt, hpart hlt, hf.own_none] at hs
        cases hs
      · rw [if_neg fun heq : id = f.state.id ↦ hlt (heq ▸ hf.own_lt)]
        exact h.new id (Nat.le_of_not_lt hlt) s hs hid.1 a ha
  have hold : ∀ {a id}, g.Holds I id a → id < f.executor.nextStateId → id ≠ f.state.id →
      f.Holds I id a := by
    intro a id hid hlt hne
    refine ⟨fun hmem ↦ hid.1 (h.removed_sub id hmem), ?_⟩
    obtain ⟨heq, -⟩ | ⟨s, hs, ha⟩ := hid.2
    · exact absurd (heq.symm.trans h.id_eq) hne
    · exact .inr ⟨s, h.old id hlt ▸ hs, ha⟩
  refine refines_of_origin fun a ↦ ⟨fun id ↦ if id < f.executor.nextStateId then id else f.state.id,
    fun id hid ↦ ?_, fun id id' hid hid' heq ↦ ?_⟩
  · dsimp only
    by_cases hpart : id < f.executor.nextStateId ∧ id ≠ f.state.id
    · rw [if_pos hpart.1]
      exact hold hid hpart.1 hpart.2
    · have hpart : id < f.executor.nextStateId → id = f.state.id := by simpa using hpart
      have ha := hwithin _ a (hbound hid hpart)
      split
      · exact hpart ‹_› ▸ ⟨hgoing, .inl ⟨rfl, ha⟩⟩
      · exact ⟨hgoing, .inl ⟨rfl, ha⟩⟩
  · -- parts with the same origin have the solution in common, and so are one
    have hsame : (id < f.executor.nextStateId → id = f.state.id) →
        (id' < f.executor.nextStateId → id' = f.state.id) → id = id' := by
      intro hpart hpart'
      by_contra hne
      refine hapart not_false _ _ a ?_ (hbound hid hpart) (hbound hid' hpart')
      unfold place
      split
      · rw [if_neg fun heq' ↦ hne (‹id = _›.trans heq'.symm)]
        exact nofun
      · split
        · exact nofun
        · exact fun heq ↦ hne (Branch.forked.inj heq)
    dsimp only at heq
    split at heq
    · split at heq
      · exact heq
      · exact hsame (fun _ ↦ heq) fun hlt ↦ absurd hlt ‹_›
    · split at heq
      · exact hsame (fun hlt ↦ absurd hlt ‹_›) fun _ ↦ heq.symm
      · exact hsame (fun hlt ↦ absurd hlt ‹_›) fun hlt ↦ absurd hlt ‹_›

theorem Merge.refines {other merged : State} (h : f.Merge I g id other merged) (hf : f.Tidy) :
    f.Refines I g := by
  have hget : ∀ id', g.executor.states[id']? =
      if id = id' then some merged else f.executor.states[id']? := fun id' ↦ by
    rw [h.states_eq, getElem?_insert_state]
  have hended : ∀ {a id'}, g.Holds I id' a → id' ≠ f.state.id := by
    rintro a id' hid' rfl
    refine hid'.1 ?_
    rw [h.removed_eq]
    simp
  -- other states than the merged one are as they were
  have hrest : ∀ {a id'}, id' ≠ id → g.Holds I id' a → f.Holds I id' a := by
    intro a id' hne hid'
    refine ⟨fun hmem ↦ hid'.1 (by rw [h.removed_eq]; exact List.mem_append_left _ hmem), ?_⟩
    rw [Holds, hget, if_neg (Ne.symm hne), h.state_eq] at hid'
    exact hid'.2
  have hmerged : ∀ {a}, g.Holds I id a → I.Solves a other.constraints ∨ I.Solves a f.state.constraints := by
    intro a hid
    obtain ⟨heq, -⟩ | ⟨s, hs, ha⟩ := hid.2
    · rw [h.state_eq] at heq
      have hnone := hf.own_none
      rw [heq, h.other_eq] at hnone
      cases hnone
    · rw [hget, if_pos rfl] at hs
      obtain rfl := Option.some.inj hs
      exact h.solves a ha
  refine refines_of_origin fun a ↦ ?_
  by_cases ha : I.Solves a other.constraints
  · refine ⟨fun id ↦ id, fun id' hid' ↦ ?_, fun _ _ _ _ heq ↦ heq⟩
    by_cases heq : id' = id
    · exact heq ▸ ⟨h.other_going, .inr ⟨other, h.other_eq, ha⟩⟩
    · exact hrest heq hid'
  · refine ⟨fun id' ↦ if id' = id then f.state.id else id', fun id' hid' ↦ ?_, fun i i' hi hi' heq ↦ ?_⟩
    · dsimp only
      split
      · rename_i heq
        exact ⟨h.going, .inl ⟨rfl, (hmerged (heq ▸ hid')).resolve_left ha⟩⟩
      · exact hrest ‹_› hid'
    · dsimp only at heq
      split at heq
      · split at heq
        · exact ‹i = id›.trans ‹i' = id›.symm
        · exact absurd heq.symm (hended hi')
      · split at heq
        · exact absurd heq (hended hi)
        · exact heq

theorem refines_visit {s : State} (hs : f.executor.states[id]? = some s) (hf : f.Tidy)
    (hin : Succeeds ⟨{ f.executor with states := f.executor.states.erase id }, s⟩ g)
    (h : Refines I ⟨{ f.executor with states := f.executor.states.erase id }, s⟩ g) :
    f.Refines I ⟨{ g.executor with states := g.executor.states.insert id g.state }, f.state⟩ := by
  obtain ⟨hname, -⟩ := hf.named id s hs
  have hne : id ≠ f.state.id := by
    rintro rfl
    exact nomatch hs.symm.trans hf.own_none
  -- what is seen from outside is seen from inside, or is the state that waits
  have hinner : ∀ {a id'}, Holds I ⟨{ g.executor with states := g.executor.states.insert id g.state },
      f.state⟩ id' a → id' ≠ f.state.id → g.Holds I id' a := by
    intro a id' hid' hne'
    refine ⟨hid'.1, ?_⟩
    obtain ⟨heq, -⟩ | ⟨s', hs', ha⟩ := hid'.2
    · exact absurd heq.symm hne'
    · dsimp only at hs'
      rw [getElem?_insert_state] at hs'
      split at hs'
      · rename_i heq
        exact .inl ⟨hin.id_eq.trans (hname.trans heq), Option.some.inj hs' ▸ ha⟩
      · exact .inr ⟨s', hs', ha⟩
  have houter : ∀ {a id'}, Holds I ⟨{ f.executor with states := f.executor.states.erase id }, s⟩ id' a →
      f.Holds I id' a ∧ id' ≠ f.state.id := by
    intro a id' hid'
    obtain ⟨heq, ha⟩ | ⟨s', hs', ha⟩ := hid'.2
    · have heq : id' = id := heq.symm.trans hname
      exact ⟨⟨hid'.1, .inr ⟨s, heq ▸ hs, ha⟩⟩, heq ▸ hne⟩
    · dsimp only at hs'
      rw [getElem?_erase_state] at hs'
      split at hs'
      · cases hs'
      · refine ⟨⟨hid'.1, .inr ⟨s', hs', ha⟩⟩, ?_⟩
        rintro rfl
        exact nomatch hs'.symm.trans hf.own_none
  have hwaits : ∀ {a}, Holds I ⟨{ g.executor with states := g.executor.states.insert id g.state },
      f.state⟩ f.state.id a → f.Holds I f.state.id a := by
    intro a hid
    refine ⟨fun hmem ↦ hid.1 (hin.removed_sub _ hmem), ?_⟩
    obtain ⟨-, ha⟩ | ⟨s', hs', -⟩ := hid.2
    · exact .inl ⟨rfl, ha⟩
    · exact nomatch hs'.symm.trans (Succeeds.visit hf hs hin).tidy.own_none
  refine ⟨fun a id' hid' ↦ ?_, fun a i i' hi hhi hhi' ↦ ?_⟩
  · by_cases heq : id' = f.state.id
    · exact ⟨_, hwaits (heq ▸ hid')⟩
    · obtain ⟨i, hi⟩ := h.one a id' (hinner hid' heq)
      exact ⟨i, (houter hi).1⟩
  · by_cases heq : i = f.state.id
    · obtain ⟨j, hj⟩ := h.one a i' (hinner hhi' fun heq' ↦ hi (heq.trans heq'.symm))
      exact ⟨_, j, (houter hj).2.symm, hwaits (heq ▸ hhi), (houter hj).1⟩
    · by_cases heq' : i' = f.state.id
      · obtain ⟨j, hj⟩ := h.one a i (hinner hhi heq)
        exact ⟨j, _, (houter hj).2, (houter hj).1, hwaits (heq' ▸ hhi')⟩
      · obtain ⟨j, j', hj, hhj, hhj'⟩ := h.two a i i' hi (hinner hhi heq) (hinner hhi' heq')
        exact ⟨j, j', hj, (houter hhj).1, (houter hhj').1⟩

theorem Moves.refines {lost : Prop} (h : f.Moves I False lost g) (hf : f.Tidy) : f.Refines I g := by
  induction h with
  | own h => exact h.refines
  | trans hf' _ ihf ihg => exact (ihf hf).trans (ihg (hf'.succeeds hf).tidy)
  | @follow f g side rest _ h _ =>
    have hg : (f.withReplayPath rest).Refines I g := h.refines
    exact ⟨hg.one, hg.two⟩
  | @stray f side rest _ _ =>
    have hf : f.Refines I f := (Own.refl I f).refines
    exact ⟨hf.one, hf.two⟩
  | divide h => exact h.refines hf
  | merge h => exact h.refines hf
  | visit hs h ih => exact refines_visit hs hf (h.succeeds (hf.visit hs)) (ih (hf.visit hs))

end Focus

end Symex
