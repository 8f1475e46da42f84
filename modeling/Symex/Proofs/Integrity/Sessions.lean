import Symex.Proofs.Integrity.Instructions
import Symex.Proofs.Lineage.Runs

namespace Symex

open Checked

variable {σ α β : Type} {p : Program} {stalls : Prop}

theorem Shape.Stalled.mono {n n' : Nat} {sh : Shape} (h : sh.Stalled p n) (hn : n ≤ n') : sh.Stalled p n' :=
  ⟨h.midway, h.kept.mono hn⟩

theorem Focus.Rests.steps {ended : Prop} {g h : Focus σ} (hh : g.Rests h) (hg : g.Tidy)
    (hprogram : g.executor.program = p) (hconstants : g.executor.constants.size = p.constants.size)
    (hown : g.Going → g.state.shape.InOrder p g.bound ∨ ended ∧ g.state.shape.Stalled p g.bound) :
    g.Steps p ended h where
  succeeds := ⟨hh.tidy hg, hh.id_eq, hh.config_eq, Nat.le_of_eq hh.next_eq.symm, hh.removed_sub,
    fun id _ hnone ↦ hh.states_eq ▸ hnone⟩
  program_eq := hh.program_eq.trans hprogram
  constants_eq := hh.constants_eq ▸ hconstants
  bound_le := hh.bound_le
  old id _ s hs := ⟨s, hh.states_eq ▸ hs, rfl⟩
  new id hge s hs := by
    rw [hh.states_eq] at hs
    exact absurd (hg.named id s hs).2 (Nat.not_lt.2 hge)
  own hgoing := by
    rw [hh.shape_eq]
    exact (hown (hh.goingAt (b := .current) hgoing)).imp (·.mono hh.bound_le) fun h ↦ ⟨h.1, h.2.mono hh.bound_le⟩

/-- Memory is in order, and nothing is missing that is looked up unless a state stalls. -/
def Fault.Bearable (stalls : Prop) (fault : Fault) : Prop := fault ≠ .unbound ∧ (fault = .missing → stalls)

theorem Fault.bearable {fault : Fault} (h : fault ≠ .missing ∧ fault ≠ .unbound) : fault.Bearable stalls :=
  ⟨h.2, fun hmissing ↦ (h.1 hmissing).elim⟩

theorem Fault.Ordinary.bearable {fault : Fault} (h : fault.Ordinary) : fault.Bearable stalls :=
  Fault.bearable ⟨h.1, h.2.1⟩

namespace Executor

variable {e e' : Executor σ} {stalled left : List StateId} {id : StateId} {s : State}

/-- All live states are in order, but for those that stall. -/
structure Ordered (p : Program) (stalled : List StateId) (e : Executor σ) : Prop where
  tidy : e.Tidy
  program_eq : e.program = p
  constants_eq : e.constants.size = p.constants.size
  states : ∀ id s, e.states[id]? = some s → id ∉ e.removed →
    s.shape.InOrder p e.allocator.nextId ∨ id ∈ stalled ∧ s.shape.Stalled p e.allocator.nextId

def picked (e : Executor σ) : Option StateId :=
  match (update none).run e with
  | .ok (_, e') => e'.searcher.select.1
  | .error _ => none

/-- Nothing changed that concerns a state. -/
structure Unmoved (e e' : Executor σ) : Prop where
  states_eq : e'.states = e.states
  next_eq : e'.nextStateId = e.nextStateId
  removed_eq : e'.removed = e.removed
  program_eq : e'.program = e.program
  constants_eq : e'.constants = e.constants
  allocator_eq : e'.allocator = e.allocator

namespace Ordered

theorem kept (he : e.Ordered p stalled) (hs : e.states[id]? = some s) (hid : id ∉ e.removed) :
    s.shape.Kept p e.allocator.nextId :=
  (he.states id s hs hid).elim (·.kept) (·.2.kept)

theorem traceable (he : e.Ordered p stalled) (hs : e.states[id]? = some s) (hid : id ∉ e.removed) :
    s.shape.Traceable p := by
  obtain hs | ⟨-, ⟨l, -, hmidway⟩, -⟩ := he.states id s hs hid
  · exact hs.traceable
  · exact hmidway.traceable

theorem mono (he : e.Ordered p stalled) (hsub : ∀ i ∈ stalled, i ∈ left) : e.Ordered p left :=
  { he with states := fun id s hs hid ↦ (he.states id s hs hid).imp_right fun h ↦ ⟨hsub id h.1, h.2⟩ }

theorem unmoved (he : e.Ordered p stalled) (h : e.Unmoved e') : e'.Ordered p stalled where
  tidy := by
    refine ⟨fun id s hs ↦ ?_, fun id hid ↦ ?_⟩
    · rw [h.states_eq] at hs
      exact h.next_eq ▸ he.tidy.named id s hs
    · exact h.next_eq ▸ he.tidy.removed_lt id (h.removed_eq ▸ hid)
  program_eq := h.program_eq.trans he.program_eq
  constants_eq := h.constants_eq ▸ he.constants_eq
  states id s hs hid := h.allocator_eq ▸ he.states id s (h.states_eq ▸ hs) (h.removed_eq ▸ hid)

theorem settle (he : e.Ordered p stalled) (h : e.Settles e') (hallocator : e'.allocator = e.allocator) :
    e'.Ordered p stalled where
  tidy := (show Develops .all True True e e' from .settle h).tidy he.tidy
  program_eq := h.program_eq.trans he.program_eq
  constants_eq := h.constants_eq ▸ he.constants_eq
  states id s hs _ := by
    rw [h.states_eq] at hs
    split at hs
    · cases hs
    · exact hallocator ▸ he.states id s hs ‹_›

theorem poised (he : e.Ordered p stalled) (hs : e.states[id]? = some s)
    (hinOrder : s.shape.InOrder p e.allocator.nextId) : (e.focusOn id s).Poised p where
  tidy := he.tidy.focusOn hs
  program_eq := he.program_eq
  constants_eq := he.constants_eq
  kept id' s' hs' hid' := by
    rw [focusOn, Focus.getElem?_erase_state] at hs'
    split at hs'
    · cases hs'
    · exact he.kept hs' hid'
  inOrder := hinOrder

theorem visit {ended : Prop} {f : Focus σ} (he : e.Ordered p stalled) (hs : e.states[id]? = some s)
    (hf : (e.focusOn id s).Steps p ended f) (hsub : ∀ i ∈ stalled, i ∈ left) (hid : ended → id ∈ left) :
    Ordered p left { f.executor with states := f.executor.states.insert id f.state } where
  tidy := he.tidy.of_focusOn hs hf.succeeds
  program_eq := hf.program_eq
  constants_eq := hf.constants_eq
  states id' s' hs' hgoing := by
    dsimp only at hs' hgoing ⊢
    rw [Focus.getElem?_insert_state] at hs'
    split at hs'
    · rename_i heq
      obtain rfl := Option.some.inj hs'
      have hname : f.state.id = id' := (hf.succeeds.id_eq.trans (he.tidy.named id s hs).1).trans heq
      exact (hf.own (by rwa [Focus.Going, hname])).imp_right fun h ↦ ⟨heq ▸ hid h.1, h.2⟩
    · rename_i hne
      by_cases hlt : id' < e.nextStateId
      · obtain ⟨s₀, hs₀, hshape⟩ := hf.old id' hlt s' hs'
        rw [focusOn, Focus.getElem?_erase_state, if_neg hne] at hs₀
        rw [hshape]
        have hbefore := he.states id' s₀ hs₀ fun hmem ↦ hgoing (hf.succeeds.removed_sub id' hmem)
        exact hbefore.imp (·.mono hf.bound_le) fun h ↦ ⟨hsub id' h.1, h.2.mono hf.bound_le⟩
      · exact .inl (hf.new id' (Nat.le_of_not_lt hlt) s' hs' hgoing)

end Ordered

/-! ## Visits -/

theorem ordered_visit {F : Fault → Prop} {work : Exec σ α} (ended : Except PathError α → Prop)
    (he : e.Ordered p stalled) (hwork : ∀ s, e.states[id]? = some s →
      work.Ends F (e.focusOn id s) fun r f ↦ (e.focusOn id s).Steps p (ended r) f) :
    Ends F ((Executor.visit id work).run e) fun q ↦ ∀ left : List StateId, (∀ i ∈ stalled, i ∈ left) →
      (∀ r, q.1 = some r → ended r → id ∈ left) → q.2.Ordered p left :=
  ends_run_visit (fun _ _ hsub _ ↦ he.mono hsub) fun s hs ↦ (hwork s hs).mono fun r _ hf _ hsub hid ↦
    he.visit hs hf hsub (hid r rfl)

theorem foldl_drop_allocator (ids : List StateId) (e : Executor σ) :
    (ids.foldl drop e).allocator = e.allocator := by
  induction ids generalizing e with
  | nil => rfl
  | cons id rest ih => exact ih (e.drop id)

theorem ordered_update {F : Fault → Prop} (current : Option StateId) (he : e.Ordered p stalled) :
    Ends F ((update current).run e) fun q ↦ q.2.Ordered p stalled ∧ q.2.removed = [] := by
  have hallocator : Ends F ((update current).run e) fun q ↦ q.2.allocator = e.allocator :=
    ends_pure (foldl_drop_allocator e.removed e)
  exact (hallocator.and (ends_update current e)).mono fun q h ↦ ⟨he.settle h.2 h.1, h.2.removed_eq⟩

/-! ## Sessions -/

/-- From a machine in which no state has ended the work leads to such a one, and the result and the states that
stall then are as `Q` says. -/
def Goes (p : Program) (stalls : Prop) (stalled : List StateId) (x : Session σ α)
    (Q : α → List StateId → Prop) : Prop :=
  ∀ e : Executor σ, e.Ordered p stalled → e.removed = [] → Ends (Fault.Bearable stalls) (x.run e) fun q ↦
    ∃ left, Q q.1 left ∧ q.2.Ordered p left ∧ q.2.removed = []

/-- No more states stall than before. -/
abbrev Spares (p : Program) (stalls : Prop) (stalled : List StateId) (x : Session σ α) : Prop :=
  Goes p stalls stalled x fun _ left ↦ left = stalled

/-- No state stalls any longer. -/
abbrev Clears (p : Program) (stalls : Prop) (stalled : List StateId) (x : Session σ α) : Prop :=
  Goes p stalls stalled x fun _ left ↦ left = []

/-- No more states stall than before, except after an error. -/
abbrev Risks (p : Program) (stalls : Prop) (stalled : List StateId) (x : Session σ (Except PathError α)) : Prop :=
  Goes p stalls stalled x fun r left ↦ left = stalled ∨ ∃ error, r = .error error

/-- After an error no state stalls any longer. -/
abbrev Recovers (p : Program) (stalls : Prop) (stalled : List StateId)
    (x : Session σ (Except PathError α)) : Prop :=
  Goes p stalls stalled x fun _ left ↦ left = stalled ∨ left = []

section

variable {x : Session σ α} {k : α → Session σ β} {Q : α → List StateId → Prop} {R : β → List StateId → Prop}
  {Q' : List StateId → Prop}

theorem goes_pure {a : α} (h : Q a stalled) : Goes p stalls stalled (pure a : Session σ α) Q := fun _ he hr ↦
  ends_pure ⟨stalled, h, he, hr⟩

theorem goes_throw {fault : Fault} (h : fault ≠ .missing ∧ fault ≠ .unbound) :
    Goes p stalls stalled (throw fault : Session σ α) Q := fun _ _ _ ↦ ends_throw (Fault.bearable h)

theorem goes_bind (hx : Goes p stalls stalled x Q) (hk : ∀ a left, Q a left → Goes p stalls left (k a) R) :
    Goes p stalls stalled (x >>= k) R := fun e he hr ↦
  ends_run_bind (hx e he hr) fun a e' ⟨left, hQ, he', hr'⟩ ↦ hk a left hQ e' he' hr'

theorem Spares.imp (hx : Spares p stalls stalled x) (hQ : ∀ {left : List StateId}, left = stalled → Q' left) :
    Goes p stalls stalled x fun _ left ↦ Q' left := fun e he hr ↦
  (hx e he hr).mono fun _ ⟨left, hleft, h⟩ ↦ ⟨left, hQ hleft, h⟩

theorem Spares.bind (hx : Spares p stalls stalled x) (hk : ∀ a, Goes p stalls stalled (k a) R) :
    Goes p stalls stalled (x >>= k) R :=
  goes_bind hx fun a _ h ↦ h ▸ hk a

theorem goes_get_bind {k : Executor σ → Session σ β} (hk : ∀ e, Goes p stalls stalled (k e) R) :
    Goes p stalls stalled (get >>= k) R := fun e he hr ↦ hk e e he hr

theorem goes_modify_bind {f : Executor σ → Executor σ} {k : PUnit → Session σ β}
    (h : ∀ e : Executor σ, e.Unmoved (f e)) (hk : ∀ u, Goes p stalls stalled (k u) R) :
    Goes p stalls stalled (modify f >>= k) R := fun e he hr ↦
  hk ⟨⟩ (f e) (he.unmoved (h e)) ((h e).removed_eq.trans hr)

theorem spares_update (current : Option StateId) : Spares p stalls stalled (update current : Session σ _) :=
  fun _ he _ ↦ (ordered_update current he).mono fun _ h ↦ ⟨stalled, rfl, h⟩

/-! ## Work that steps no state -/

/-- All states that are live and have not ended are among these. -/
def Remaining (ids : List StateId) (e : Executor σ) : Prop :=
  ∀ id s, e.states[id]? = some s → id ∈ e.removed ∨ id ∈ ids

theorem ordered_visit_terminateEarly (id : StateId) (reason : String) (he : e.Ordered p stalled) :
    Ends Fault.Ordinary ((visit id (Exec.terminateEarly reason)).run e) fun q ↦
      q.2.Ordered p stalled ∧ ∀ rest, e.Remaining (id :: rest) → q.2.Remaining rest := by
  refine ends_run_visit (fun hnone ↦ ⟨he, fun rest hrest i s hs ↦ ?_⟩) fun s hs ↦ ?_
  · refine (hrest i s hs).imp_right fun hi ↦ (List.mem_cons.1 hi).resolve_left ?_
    rintro rfl
    cases hnone.symm.trans hs
  · have hgoing : (e.focusOn id s).Going → id ∉ e.removed := fun h hmem ↦
      h ((he.tidy.named id s hs).1.symm ▸ hmem)
    have hearly := Exec.found_terminateWith (g := e.focusOn id s) (.early reason) none fun h ↦
      he.program_eq.symm ▸ he.traceable hs (hgoing h)
    refine Exec.Ends.mono (hearly.and (Exec.quits_terminateWith _ _ _)) ?_
    rintro _ h ⟨hrests, _, -, hend⟩
    have hsteps : (e.focusOn id s).Steps p (id ∈ stalled) h :=
      hrests.steps (he.tidy.focusOn hs) he.program_eq he.constants_eq fun h ↦ he.states id s hs (hgoing h)
    refine ⟨he.visit hs hsteps (fun _ h ↦ h) fun h ↦ h, fun rest hrest i t ht ↦ ?_⟩
    dsimp only at ht ⊢
    rw [Focus.getElem?_insert_state] at ht
    split at ht
    · rename_i heq
      refine .inl (Decidable.byContradiction fun hmem ↦ hend ?_)
      rwa [Focus.Going, hrests.id_eq, show (e.focusOn id s).state.id = id from (he.tidy.named id s hs).1, heq]
    · rename_i hne
      rw [hrests.states_eq, focusOn, Focus.getElem?_erase_state, if_neg hne] at ht
      refine (hrest i t ht).imp (hrests.removed_sub i) fun hi ↦ (List.mem_cons.1 hi).resolve_left ?_
      exact fun heq ↦ hne heq.symm

theorem ordered_giveUp (ids : List StateId) (reason : String) (he : e.Ordered p stalled) :
    Ends Fault.Ordinary ((giveUp ids reason).run e) fun q ↦
      q.2.Ordered p stalled ∧ q.2.removed = [] ∧ ∀ rest, e.Remaining (ids ++ rest) → q.2.Remaining rest := by
  have hvisits : Ends Fault.Ordinary ((forIn ids PUnit.unit fun id _ ↦ do
        let _ ← visit id (Exec.terminateEarly reason)
        pure (ForInStep.yield PUnit.unit) : Session σ PUnit).run e) fun q ↦
      q.2.Ordered p stalled ∧ ∀ rest, e.Remaining (ids ++ rest) → q.2.Remaining rest := by
    induction ids generalizing e with
    | nil => exact ends_pure ⟨he, fun _ h ↦ h⟩
    | cons id ids ih =>
      rw [List.forIn_cons]
      refine ends_bind (P := fun q ↦ q.1 = ForInStep.yield PUnit.unit ∧ q.2.Ordered p stalled ∧
        ∀ rest, e.Remaining (id :: rest) → q.2.Remaining rest) ?_ ?_
      · exact ends_bind (ordered_visit_terminateEarly id reason he) fun q hq ↦ ends_pure ⟨rfl, hq⟩
      · rintro ⟨_, e'⟩ ⟨rfl, he', hrest⟩
        exact (ih he').mono fun _ h ↦ ⟨h.1, fun rest hids ↦ h.2 rest (hrest _ hids)⟩
  refine ends_run_bind hvisits fun _ e' ⟨he', hrest⟩ ↦ ?_
  refine ends_run_bind ((ordered_update none he').and (ends_update none e')) fun _ _ h ↦ ?_
  refine ends_pure ⟨h.1.1, h.1.2, fun rest hids id s hs ↦ .inr ?_⟩
  rw [h.2.states_eq] at hs
  split at hs
  · cases hs
  · exact (hrest rest hids id s hs).resolve_left ‹_›

theorem spares_giveUp (ids : List StateId) (reason : String) :
    Spares p stalls stalled (giveUp ids reason : Session σ Unit) := fun _ he _ ↦
  ((ordered_giveUp ids reason he).weaken fun _ ↦ Fault.Ordinary.bearable).mono fun _ h ↦
    ⟨stalled, rfl, h.1, h.2.1⟩

theorem clears_giveUpAll (reason : String) : Clears p stalls stalled (giveUpAll reason : Session σ Unit) := by
  intro e he hr
  refine ((ordered_giveUp e.states.keys reason he).weaken fun _ ↦ Fault.Ordinary.bearable).mono fun _ h ↦
    ⟨[], rfl, { h.1 with states := fun id s hs hid ↦ ?_ }, h.2.1⟩
  refine ((h.2.2 [] (fun id s hs ↦ .inr ?_) id s hs).elim hid List.not_mem_nil).elim
  rw [List.append_nil, Std.TreeMap.mem_keys, Std.TreeMap.mem_iff_isSome_getElem?, hs]
  rfl

theorem clears_abort (error : PathError) : Clears p stalls stalled (abort error : Session σ _) :=
  goes_bind (clears_giveUpAll _) fun _ _ hleft ↦
    goes_modify_bind (fun _ ↦ ⟨rfl, rfl, rfl, rfl, rfl, rfl⟩) fun _ ↦ goes_pure hleft

theorem clears_halt : Clears p stalls stalled (halt : Session σ _) :=
  goes_bind (clears_giveUpAll _) fun _ _ _ ↦ goes_get_bind fun _ ↦ clears_abort _

theorem spares_checkMemory : Spares p stalls stalled (checkMemory : Session σ Unit) := by
  refine goes_get_bind fun e ↦ ?_
  split
  · exact goes_pure rfl
  · refine goes_modify_bind (fun _ ↦ ⟨rfl, rfl, rfl, rfl, rfl, rfl⟩) fun _ ↦ ?_
    dsimp only
    split
    · exact goes_pure rfl
    · exact goes_modify_bind (fun _ ↦ ⟨rfl, rfl, rfl, rfl, rfl, rfl⟩) fun _ ↦ spares_giveUp _ _

theorem spares_stops (counter : Nat) : Spares p stalls stalled (stops counter : Session σ Bool) := by
  refine goes_get_bind fun e ↦ ?_
  dsimp only
  split
  · exact goes_pure rfl
  · exact goes_modify_bind (fun _ ↦ ⟨rfl, rfl, rfl, rfl, rfl, rfl⟩) fun _ ↦ goes_pure rfl

theorem recovers_end {x : Session σ PathError} (hx : Clears p stalls left x) :
    Goes p stalls left (do return .error (← x) : Session σ (Except PathError α)) fun _ left ↦
      left = stalled ∨ left = [] :=
  goes_bind hx fun _ _ hleft ↦ goes_pure (.inr hleft)

end

/-! ## Steps -/

section

variable (hp : p.isValid)
include hp

theorem Ordered.ends_step (he : e.Ordered p stalled) (hr : e.removed = []) (hs : e.states[id]? = some s)
    (hstalls : id ∈ stalled → stalls) : (Exec.step : Exec σ Unit).Ends
      (fun fault ↦ fault.Bearable stalls ∧ fault ≠ .ended) (e.focusOn id s) fun r f ↦
        (e.focusOn id s).Steps p (∃ error, r = .error error) f := by
  have hfound (hs' : s.shape.InOrder p e.allocator.nextId) := (Exec.found_step hp (he.poised hs hs')).weaken
    (G := fun fault ↦ fault.Bearable stalls ∧ fault ≠ .ended) fun _ h ↦ ⟨h.bearable, h.2.2⟩
  obtain hs' | ⟨hmem, ⟨l, -, hmidway⟩, hkept⟩ := he.states id s hs (by simp [hr])
  · exact hfound hs'
  · cases hnext : p.instruction? l.next with
    | none =>
      refine ((Exec.ends_step_of_none (g := e.focusOn id s) hmidway he.program_eq hnext).weaken ?_).mono
        fun _ _ h ↦ h.elim
      exact fun fault hfault ↦ ⟨⟨hfault.1, fun _ ↦ hstalls hmem⟩, hfault.2⟩
    | some i => exact hfound (.mk (hmidway.controlled (by rw [hnext, Option.isSome_some])) hkept)

theorem goes_stepState (id : StateId) (hstalls : id ∈ stalled → stalls) :
    Goes p stalls stalled (stepState id : Session σ _) fun r left ↦
      left = stalled ∨ (∃ error, r = .error error) ∧ left = id :: stalled := by
  intro e he hr
  have hstep : ∀ s, e.states[id]? = some s → (Exec.step : Exec σ Unit).Ends (Fault.Bearable stalls)
      (e.focusOn id s) fun r f ↦ (e.focusOn id s).Steps p (∃ error, r = .error error) f := fun s hs ↦
    (he.ends_step hp hr hs hstalls).weaken fun _ h ↦ h.1
  refine ends_run_bind (ordered_visit _ he hstep) fun o e' h ↦ ?_
  cases o with
  | none => exact ends_throw (Fault.bearable (by decide))
  | some result =>
    cases result with
    | ok _ =>
      have he' : e'.Ordered p stalled := h stalled (fun _ h ↦ h) (by rintro _ ⟨⟩ ⟨_, ⟨⟩⟩)
      exact ends_run_bind (ordered_update _ he') fun _ _ h' ↦ ends_pure ⟨stalled, .inl rfl, h'⟩
    | error error =>
      have he' : e'.Ordered p (id :: stalled) :=
        h _ (fun _ ↦ List.mem_cons_of_mem id) fun _ _ _ ↦ List.mem_cons_self
      exact ends_run_bind (ordered_update _ he') fun _ _ h' ↦
        ends_pure ⟨id :: stalled, .inr ⟨⟨error, rfl⟩, rfl⟩, h'⟩

theorem ordered_step (he : e.Ordered p stalled) (hstalls : ∀ id, e.picked = some id → id ∈ stalled → stalls) :
    Ends (Fault.Bearable stalls) (step.run e) fun q ↦ ∃ left, (left = stalled ∨
      (∃ error, q.1 = .error error) ∧ left = e.picked.toList ++ stalled) ∧ q.2.Ordered p left ∧
        q.2.removed = [] := by
  have hupdate : Ends (Fault.Bearable stalls) ((update none).run e) fun q ↦
      (q.2.Ordered p stalled ∧ q.2.removed = []) ∧ e.picked = q.2.searcher.select.1 := by
    refine ((ordered_update none he).and (ends_true_iff.2 fun q hq ↦ ?_)).mono fun _ h ↦ h
    rw [picked, hq]
  refine ends_run_bind hupdate ?_
  rintro _ e' ⟨⟨he', hr'⟩, hpicked⟩
  rw [hpicked] at hstalls ⊢
  rw [StateT.run_bind, StateT.run_get, pure_bind]
  dsimp only at hstalls ⊢
  generalize e'.searcher.select = choice at hstalls ⊢
  obtain ⟨next, searcher⟩ := choice
  have he'' : ({ e' with searcher } : Executor σ).Ordered p stalled := he'.unmoved ⟨rfl, rfl, rfl, rfl, rfl, rfl⟩
  cases next with
  | none => exact ends_pure ⟨stalled, .inl rfl, he'', hr'⟩
  | some id =>
    refine ends_run_bind (P := fun q ↦ q.2 = { e' with searcher }) (ends_pure rfl) ?_
    rintro _ _ rfl
    refine ends_run_bind (goes_stepState hp id (hstalls id rfl) _ he'' hr') ?_
    rintro r e₁ ⟨left, hleft, he₁, hr₁⟩
    refine ends_pure ⟨left, hleft.imp_right ?_, he₁, hr₁⟩
    rintro ⟨⟨error, rfl⟩, rfl⟩
    exact ⟨⟨error, rfl⟩, rfl⟩

variable (hstalls : stalled ≠ [] → stalls)
include hstalls

theorem risks_step : Risks p stalls stalled (step : Session σ _) := fun _ he _ ↦
  (ordered_step hp he fun _ _ hmem ↦ hstalls (List.ne_nil_of_mem hmem)).mono fun _ ⟨left, hleft, h⟩ ↦
    ⟨left, hleft.imp_right (·.1), h⟩

/-! ## Runs -/

theorem risks_followSeeds (fuel counter : Nat) (cursor : Option StateId) :
    Risks p stalls stalled (followSeeds fuel counter cursor : Session σ _) := by
  have hfinish : Risks p stalls stalled (followSeeds.finish : Session σ _) :=
    goes_modify_bind (fun _ ↦ ⟨rfl, rfl, rfl, rfl, rfl, rfl⟩) fun _ ↦ goes_pure (.inl rfl)
  induction fuel generalizing counter cursor with
  | zero => exact goes_throw (by decide)
  | succ fuel ih =>
    refine goes_get_bind fun e ↦ ?_
    split
    · exact hfinish
    · refine (spares_stops counter).bind fun stopped ↦ ?_
      split
      · exact hfinish
      · split
        · exact hfinish
        · refine goes_bind (goes_stepState hp _ fun hmem ↦ hstalls (List.ne_nil_of_mem hmem)) fun r left h ↦ ?_
          cases r with
          | error error => exact goes_pure (.inr ⟨error, rfl⟩)
          | ok report =>
            obtain rfl : left = stalled := h.resolve_right (by rintro ⟨⟨_, ⟨⟩⟩, -⟩)
            exact ih _ _

theorem recovers_step_explore {fuel counter : Nat}
    (hexplore : Recovers p stalls stalled (explore fuel counter : Session σ _)) :
    Recovers p stalls stalled (do
      match ← step with
      | .error error => return .error (← abort error)
      | .ok _ => explore fuel counter : Session σ (Except PathError Unit)) := by
  refine goes_bind (risks_step hp hstalls) fun r left h ↦ ?_
  cases r with
  | error error => exact recovers_end (clears_abort error)
  | ok report =>
    obtain rfl : left = stalled := h.resolve_right (by rintro ⟨_, ⟨⟩⟩)
    exact hexplore

theorem recovers_explore (fuel counter : Nat) :
    Recovers p stalls stalled (explore fuel counter : Session σ _) := by
  induction fuel generalizing counter with
  | zero => exact goes_throw (by decide)
  | succ fuel ih =>
    have hstep := recovers_step_explore hp hstalls (ih (counter + 1))
    refine goes_get_bind fun e ↦ ?_
    split
    · exact goes_pure (.inl rfl)
    · refine (spares_stops counter).bind fun stopped ↦ ?_
      split
      · exact recovers_end clears_halt
      · dsimp only
        split
        · exact spares_checkMemory.bind fun _ ↦ hstep
        · exact hstep

theorem recovers_run : Recovers p stalls stalled (run : Session σ _) := by
  refine (spares_update none).bind fun _ ↦ goes_get_bind fun e ↦ ?_
  dsimp only
  split
  · exact recovers_explore hp hstalls _ _
  · refine goes_bind (risks_followSeeds hp hstalls _ _ _) fun r left h ↦ ?_
    split
    · exact recovers_end (clears_abort _)
    · rename_i hr
      obtain rfl : left = stalled := h.resolve_right fun ⟨error, herror⟩ ↦ hr error herror
      refine (spares_stops 0).bind fun stopped ↦ ?_
      split
      · exact recovers_end clears_halt
      · refine goes_get_bind fun e ↦ ?_
        split
        · exact goes_bind (clears_giveUpAll _) fun _ _ hleft ↦ goes_pure (.inr hleft)
        · exact recovers_explore hp hstalls _ _

end

end Executor

end Symex
