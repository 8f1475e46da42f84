import Symex.Proofs.Feasibility.Runs
import Symex.Proofs.Lineage.Exclusion
import Symex.Proofs.Lineage.Instructions

namespace Symex

open Checked

variable {σ α β : Type} {I : Inputs} {twins lost lost' : Prop}

namespace Executor

variable {e e' e'' : Executor σ}

/-! ## What becomes of a machine -/

/-- States are found by their names, all of which were given to them by the machine. -/
structure Tidy (e : Executor σ) : Prop where
  named : ∀ id s, e.states[id]? = some s → s.id = id ∧ id < e.nextStateId
  removed_lt : ∀ id ∈ e.removed, id < e.nextStateId

/-- The states that ended are gone. -/
structure Settles (e e' : Executor σ) : Prop where
  states_eq : ∀ id : StateId, e'.states[id]? = if id ∈ e.removed then none else e.states[id]?
  removed_eq : e'.removed = []
  next_eq : e'.nextStateId = e.nextStateId
  cases_eq : e'.cases = e.cases
  program_eq : e'.program = e.program
  constants_eq : e'.constants = e.constants
  steady : e.Steady e'

/-- The machine as it is seen from one of its states. -/
def focusOn (e : Executor σ) (id : StateId) (s : State) : Focus σ :=
  ⟨{ e with states := e.states.erase id }, s⟩

/-- What commands can make of a machine. -/
inductive Develops (I : Inputs) (twins lost : Prop) : Executor σ → Executor σ → Prop
  | alike {e e' : Executor σ} (h : e.Alike e') : Develops I twins lost e e'
  | trans {e e' e'' : Executor σ} (h : Develops I twins lost e e') (h' : Develops I twins lost e' e'') :
      Develops I twins lost e e''
  | visit {e : Executor σ} {id : StateId} {s : State} {g : Focus σ} (hs : e.states[id]? = some s)
      (h : (e.focusOn id s).Moves I twins lost g) :
      Develops I twins lost e { g.executor with states := g.executor.states.insert id g.state }
  | settle {e e' : Executor σ} (h : e.Settles e') : Develops I twins lost e e'

theorem Develops.mono (h : e.Develops I twins lost e') (hlost : lost → lost') : e.Develops I twins lost' e' := by
  induction h with
  | alike h => exact .alike h
  | trans _ _ ih ih' => exact .trans ih ih'
  | visit hs h => exact .visit hs (h.mono hlost)
  | settle h => exact .settle h

theorem Tidy.focusOn {id : StateId} {s : State} (he : e.Tidy) (hs : e.states[id]? = some s) :
    (e.focusOn id s).Tidy := by
  obtain ⟨hname, hlt⟩ := he.named id s hs
  refine ⟨fun id' s' hs' ↦ ?_, hname ▸ hlt, ?_, he.removed_lt⟩
  · rw [Executor.focusOn, Focus.getElem?_erase_state] at hs'
    split at hs'
    · cases hs'
    · exact he.named id' s' hs'
  · rw [Executor.focusOn, hname, Focus.getElem?_erase_state, if_pos rfl]

theorem Tidy.of_focusOn {id : StateId} {s : State} {g : Focus σ} (he : e.Tidy) (hs : e.states[id]? = some s)
    (hg : (e.focusOn id s).Succeeds g) :
    Tidy { g.executor with states := g.executor.states.insert id g.state } := by
  obtain ⟨hname, hlt⟩ := he.named id s hs
  refine ⟨fun id' s' hs' ↦ ?_, hg.tidy.removed_lt⟩
  dsimp only at hs'
  rw [Focus.getElem?_insert_state] at hs'
  split at hs'
  · rename_i heq
    obtain rfl := Option.some.inj hs'
    exact ⟨hg.id_eq.trans (hname.trans heq), heq ▸ Nat.lt_of_lt_of_le hlt hg.next_le⟩
  · exact hg.tidy.named id' s' hs'

theorem Develops.tidy (h : e.Develops I twins lost e') (he : e.Tidy) : e'.Tidy := by
  induction h with
  | @alike e e' h =>
    refine ⟨fun id s hs ↦ ?_, fun id hid ↦ ?_⟩
    · rw [h.states_eq] at hs
      exact h.next_eq ▸ he.named id s hs
    · exact h.next_eq ▸ he.removed_lt id (h.removed_eq ▸ hid)
  | trans _ _ ih ih' => exact ih' (ih he)
  | visit hs h => exact he.of_focusOn hs (h.succeeds (he.focusOn hs))
  | @settle e e' h =>
    refine ⟨fun id s hs ↦ ?_, by simp [h.removed_eq]⟩
    rw [h.states_eq] at hs
    split at hs
    · cases hs
    · exact h.next_eq ▸ he.named id s hs

theorem Develops.config_eq (h : e.Develops I twins lost e') (he : e.Tidy) : e'.config = e.config := by
  induction h with
  | alike h => exact h.config_eq
  | trans h _ ih ih' => exact (ih' (h.tidy he)).trans (ih he)
  | visit hs h => exact (h.succeeds (he.focusOn hs)).config_eq
  | settle h => exact h.steady.config_eq

/-! ## Solutions in common -/

/-- No two live states have a solution in common. -/
def Exclusive (I : Inputs) (e : Executor σ) : Prop :=
  ∀ (a : Assignment) (id id' : StateId) (s s' : State), id ≠ id' → id ∉ e.removed → id' ∉ e.removed →
    e.states[id]? = some s → e.states[id']? = some s' → I.Solves a s.constraints → ¬I.Solves a s'.constraints

theorem exists_of_holds_focusOn {id i : StateId} {s : State} {a : Assignment} (he : e.Tidy)
    (hs : e.states[id]? = some s) (h : (e.focusOn id s).Holds I i a) :
    i ∉ e.removed ∧ ∃ t, e.states[i]? = some t ∧ I.Solves a t.constraints := by
  refine ⟨h.1, ?_⟩
  obtain ⟨heq, ha⟩ | ⟨t, ht, ha⟩ := h.2
  · have heq : id = i := (he.named id s hs).1.symm.trans heq
    exact ⟨s, heq ▸ hs, ha⟩
  · rw [focusOn, Focus.getElem?_erase_state] at ht
    split at ht
    · cases ht
    · exact ⟨t, ht, ha⟩

theorem holds_of_insert {id i : StateId} {g : Focus σ} {t : State} {a : Assignment} (hid : g.state.id = id)
    (hi : i ∉ g.executor.removed) (ht : (g.executor.states.insert id g.state)[i]? = some t)
    (ha : I.Solves a t.constraints) : g.Holds I i a := by
  refine ⟨hi, ?_⟩
  rw [Focus.getElem?_insert_state] at ht
  split at ht
  · rename_i heq
    exact .inl ⟨hid.trans heq, Option.some.inj ht ▸ ha⟩
  · exact .inr ⟨t, ht, ha⟩

theorem Develops.exclusive (h : e.Develops I False lost e') (he : e.Tidy) (hx : e.Exclusive I) :
    e'.Exclusive I := by
  induction h with
  | @alike e e' h =>
    intro a id id' s s' hne hr hr' hs hs'
    rw [h.states_eq] at hs hs'
    rw [h.removed_eq] at hr hr'
    exact hx a id id' s s' hne hr hr' hs hs'
  | trans h _ ih ih' => exact ih' (h.tidy he) (ih he hx)
  | @visit e id s g hs h =>
    intro a i i' t t' hne hr hr' ht ht' ha ha'
    have htidy := he.focusOn hs
    have hid : g.state.id = id := (h.succeeds htidy).id_eq.trans (he.named id s hs).1
    -- two states with the solution were two with it before
    obtain ⟨j, j', hne, hj, hj'⟩ := (h.refines htidy).two a i i' hne (holds_of_insert hid hr ht ha)
      (holds_of_insert hid hr' ht' ha')
    obtain ⟨hr, u, hu, ha⟩ := exists_of_holds_focusOn he hs hj
    obtain ⟨hr', u', hu', ha'⟩ := exists_of_holds_focusOn he hs hj'
    exact hx a j j' u u' hne hr hr' hu hu' ha ha'
  | @settle e e' h =>
    intro a id id' s s' hne _ _ hs hs'
    rw [h.states_eq] at hs hs'
    split at hs
    · cases hs
    · split at hs'
      · cases hs'
      · exact hx a id id' s s' hne ‹_› ‹_› hs hs'

/-! ## Commands -/

theorem ends_run_bind {F : Fault → Prop} {x : Session σ α} {k : α → Session σ β} {P : α × Executor σ → Prop}
    {Q : β × Executor σ → Prop} (hx : Ends F (x.run e) P) (hk : ∀ a e', P (a, e') → Ends F ((k a).run e') Q) :
    Ends F ((x >>= k).run e) Q :=
  ends_bind hx fun p hp ↦ hk p.1 p.2 hp

theorem ends_update (current : Option StateId) (e : Executor σ) :
    Ends (fun _ ↦ True) ((update current).run e) fun p ↦ e.Settles p.2 := by
  have hdrop : ∀ (ids : List StateId) (e : Executor σ), (∀ id : StateId, (ids.foldl drop e).states[id]? =
      if id ∈ ids then none else e.states[id]?) ∧ (ids.foldl drop e).nextStateId = e.nextStateId ∧
      (ids.foldl drop e).cases = e.cases ∧ (ids.foldl drop e).program = e.program ∧
      (ids.foldl drop e).constants = e.constants ∧ e.Steady (ids.foldl drop e) := by
    intro ids
    induction ids with
    | nil => exact fun e ↦ ⟨fun id ↦ by simp, rfl, rfl, rfl, rfl, .refl e⟩
    | cons id rest ih =>
      intro e
      obtain ⟨hstates, hnext, hcases, hprogram, hconstants, hsteady⟩ := ih (e.drop id)
      have hone : e.Steady (e.drop id) := ⟨rfl, rfl, fun hempty ↦ by
        change (e.seeds.erase id).isEmpty
        simp [hempty]⟩
      refine ⟨fun id' ↦ ?_, hnext, hcases, hprogram, hconstants, hone.trans hsteady⟩
      rw [List.foldl_cons, hstates]
      change (if id' ∈ rest then none else (e.states.erase id)[id']?) = _
      rw [Focus.getElem?_erase_state]
      by_cases heq : id = id' <;> simp [heq, eq_comm]
  obtain ⟨hstates, hnext, hcases, hprogram, hconstants, hsteady⟩ := hdrop e.removed e
  exact ends_pure ⟨hstates, rfl, hnext, hcases, hprogram, hconstants, hsteady.config_eq,
    hsteady.replayPath_eq, hsteady.seeds⟩

theorem ends_run_visit {F : Fault → Prop} {e : Executor σ} {id : StateId} {work : Exec σ α}
    {P : Option (Except PathError α) × Executor σ → Prop} (hnone : e.states[id]? = none → P (none, e))
    (hsome : ∀ s, e.states[id]? = some s → work.Ends F (e.focusOn id s) fun r f ↦
      P (some r, { f.executor with states := f.executor.states.insert id f.state })) :
    Ends F ((visit id work).run e) P := by
  unfold visit
  rw [StateT.run_bind, StateT.run_get, pure_bind]
  cases hs : e.states[id]? with
  | none => exact ends_pure (hnone hs)
  | some s =>
    refine ends_bind (P := fun q : (Except PathError α × Focus σ) × Executor σ ↦
      P (some q.1.1, { q.1.2.executor with states := q.1.2.executor.states.insert id q.1.2.state })) ?_ ?_
    · exact ends_bind (hsome s hs).run fun _ hq ↦ ends_pure hq
    · rintro ⟨⟨result, focus⟩, e'⟩ h
      exact ends_pure h

theorem ends_visit {e : Executor σ} (lost : Option (Except PathError α) → Prop) (id : StateId) {work : Exec σ α}
    (hwork : ∀ s, e.states[id]? = some s → work.Ends (fun _ ↦ True) (e.focusOn id s) fun r f ↦
      (e.focusOn id s).Moves I twins (lost (some r)) f) :
    Ends (fun _ ↦ True) ((visit id work).run e) fun p ↦ e.Develops I twins (lost p.1) p.2 :=
  ends_run_visit (fun _ ↦ .alike (.refl e)) fun s hs ↦ (hwork s hs).mono fun _ _ h ↦ .visit hs h

/-- The next instruction of every state is a plain one. -/
def Plain (e : Executor σ) : Prop :=
  ∀ (id : StateId) (s : State), e.states[id]? = some s → s.Plain e.program e.constants

instance (e : Executor σ) : Decidable e.Plain :=
  decidable_of_iff (∀ p ∈ e.states.toList, p.2.Plain e.program e.constants) (by
    simp [Plain, Std.TreeMap.mem_toList_iff_getElem?_eq_some])

theorem ends_stepState (he : e.Sound I) (htidy : e.Tidy) (hremoved : e.removed = [])
    (hschedule : e.config.forkOnSchedule = true → twins) (hplain : ¬twins → e.Plain) (id : StateId) :
    Ends (fun _ ↦ True) ((stepState id).run e) fun p ↦
      e.Develops I twins (Exec.Strayed p.1) p.2 ∧ p.2.removed = [] := by
  have hstep : Ends (fun _ ↦ True) ((visit id Exec.step).run e) fun p ↦
      e.Develops I twins (∃ r, p.1 = some r ∧ Exec.Strayed r) p.2 :=
    ends_visit (fun o ↦ ∃ r, o = some r ∧ Exec.Strayed r) id fun s hs ↦
      (Exec.ends_step_makes ⟨he.erase id, he.states id s hs⟩ (htidy.focusOn hs) hschedule
        (by simp [Focus.Going, focusOn, hremoved]) fun htwins ↦ hplain htwins id s hs).mono fun _ _ h ↦
          h.moves.mono fun h ↦ ⟨_, rfl, h⟩
  refine ends_run_bind hstep fun o e' h ↦ ?_
  cases o with
  | none => exact ends_throw trivial
  | some result =>
    refine ends_run_bind (ends_update _ e') fun _ _ h' ↦ ends_pure ⟨.trans (h.mono ?_) (.settle h'), h'.removed_eq⟩
    rintro ⟨_, ⟨⟩, hstrayed⟩
    exact hstrayed.map

theorem ends_step (he : e.Sound I) (htidy : e.Tidy) (hschedule : e.config.forkOnSchedule = true → twins)
    (hplain : ¬twins → e.Plain) :
    Ends (fun _ ↦ True) (step.run e) fun p ↦ e.Develops I twins (Exec.Strayed p.1) p.2 ∧ p.2.removed = [] := by
  refine ends_run_bind ((ends_update none e).and (keeps_update none e he)) fun _ e' ⟨hsettles, he'⟩ ↦ ?_
  have hdevelops : e.Develops I twins False e' := .settle hsettles
  have htidy' := hdevelops.tidy htidy
  have hplain' : ¬twins → e'.Plain := by
    intro htwins id s hs
    rw [hsettles.states_eq] at hs
    rw [hsettles.program_eq, hsettles.constants_eq]
    split at hs
    · cases hs
    · exact hplain htwins id s hs
  rw [StateT.run_bind, StateT.run_get, pure_bind]
  dsimp only
  obtain ⟨next, searcher⟩ := e'.searcher.select
  -- the choice of the searcher is all that differs
  refine ends_run_bind (P := fun q ↦ q.2 = { e' with searcher }) (ends_pure rfl) ?_
  intro _ selected hselected
  change selected = _ at hselected
  have halike : e'.Alike selected := hselected ▸ ⟨rfl, rfl, rfl, rfl, rfl, rfl, id⟩
  have hselect : e.Develops I twins False selected := .trans hdevelops (.alike halike)
  cases next with
  | none => exact ends_pure ⟨hselect.mono False.elim, halike.removed_eq.trans hsettles.removed_eq⟩
  | some id =>
    have hstep : Ends (fun _ ↦ True) ((stepState id).run selected) fun p ↦
        selected.Develops I twins (Exec.Strayed p.1) p.2 ∧ p.2.removed = [] := by
      refine ends_stepState ?_ (hselect.tidy htidy) (halike.removed_eq.trans hsettles.removed_eq) ?_ ?_ id
      · exact hselected ▸ ⟨he'.exact, he'.constants, he'.states⟩
      · rw [hselect.config_eq htidy]
        exact hschedule
      · exact hselected ▸ hplain'
    exact ends_run_bind hstep fun _ _ h ↦ ends_pure ⟨.trans (hselect.mono False.elim) (h.1.mono .map), h.2⟩

/-- From a machine in which no state has ended, the work leads to such a one, and makes of it what commands
can. What was lost before it stays so. -/
def Evolves (I : Inputs) (twins lost : Prop) (lost' : α → Prop) (x : Session σ α) : Prop :=
  ∀ e, e.Sound I → e.Tidy → e.removed = [] → (e.config.forkOnSchedule = true → twins) →
    Ends (fun _ ↦ True) (x.run e) fun p ↦
      e.Develops I twins (lost' p.1) p.2 ∧ p.2.removed = [] ∧ (lost → lost' p.1)

section

variable {x : Session σ α} {k : α → Session σ β} {mid : α → Prop} {lost' : β → Prop}

theorem evolves_pure {b : β} (h : lost → lost' b) : Evolves I twins lost lost' (pure b : Session σ β) :=
  fun e _ _ hr _ ↦ ends_pure ⟨.alike (.refl e), hr, h⟩

theorem evolves_throw (fault : Fault) : Evolves I twins lost lost' (throw fault : Session σ β) := fun _ _ _ _ _ ↦
  ends_throw trivial

theorem evolves_bind (hkeeps : Keeps I x) (hx : Evolves I twins lost mid x)
    (hk : ∀ a, Evolves I twins (mid a) lost' (k a)) : Evolves I twins lost lost' (x >>= k) := fun e he ht hr hs ↦
  ends_bind ((hx e he ht hr hs).and (hkeeps e he)) fun p hp ↦
    (hk p.1 p.2 hp.2 (hp.1.1.tidy ht) hp.1.2.1 (hp.1.1.config_eq ht ▸ hs)).mono fun _ h ↦
      ⟨.trans (hp.1.1.mono h.2.2) h.1, h.2.1, fun hlost ↦ h.2.2 (hp.1.2.2 hlost)⟩

theorem Evolves.of_not {x : Session σ β} (hx : Evolves I twins False lost' x) (h : ¬lost) :
    Evolves I twins lost lost' x := fun e he ht hr hs ↦
  (hx e he ht hr hs).mono fun _ hp ↦ ⟨hp.1, hp.2.1, fun hlost ↦ (h hlost).elim⟩

theorem evolves_get_bind {k : Executor σ → Session σ β} (hk : ∀ e, Evolves I twins lost lost' (k e)) :
    Evolves I twins lost lost' (get >>= k) := fun e he ht hr hs ↦ hk e e he ht hr hs

theorem evolves_modify {f : Executor σ → Executor σ} (h : ∀ e : Executor σ, e.Alike (f e)) :
    Evolves I twins lost (fun _ ↦ lost) (modify f : Session σ PUnit) := fun e _ _ hr _ ↦
  ends_pure ⟨.alike (h e), (h e).removed_eq.trans hr, id⟩

theorem evolves_update (current : Option StateId) :
    Evolves I twins lost (fun _ ↦ lost) (update current : Session σ _) :=
  fun e _ _ _ _ ↦ (ends_update current e).mono fun _ h ↦ ⟨.settle h, h.removed_eq, id⟩

theorem evolves_giveUp (ids : List StateId) (reason : String) :
    Evolves I twins lost (fun _ ↦ lost) (giveUp ids reason : Session σ Unit) := by
  have hearly : (Exec.terminateEarly reason : Exec σ Unit).Stays I False := Exec.stays_terminateWith _ _
  intro e he _ _ _
  have hvisits : ∀ e : Executor σ, Ends (fun _ ↦ True) ((forIn ids PUnit.unit fun id _ ↦ do
      let _ ← visit id (Exec.terminateEarly reason)
      pure (ForInStep.yield PUnit.unit) : Session σ PUnit).run e) fun p ↦ e.Develops I twins lost p.2 := by
    induction ids with
    | nil => exact fun e ↦ ends_pure (.alike (.refl e))
    | cons id rest ih =>
      intro e
      rw [List.forIn_cons]
      refine ends_bind (P := fun p ↦ p.1 = ForInStep.yield PUnit.unit ∧ e.Develops I twins lost p.2) ?_ ?_
      · exact ends_bind (ends_visit (fun _ ↦ lost) id fun s hs ↦ (hearly _).mono fun _ _ h ↦ .own h.1.toOwn) fun p hp ↦
          ends_pure ⟨rfl, hp⟩
      · rintro ⟨_, e'⟩ ⟨rfl, h⟩
        exact (ih e').mono fun _ h' ↦ .trans h h'
  exact ends_run_bind (hvisits e) fun _ e' h ↦ ends_run_bind (ends_update none e') fun _ _ h' ↦
    ends_pure ⟨.trans h (.settle h'), h'.removed_eq, id⟩

theorem evolves_giveUpAll (reason : String) :
    Evolves I twins lost (fun _ ↦ lost) (giveUpAll reason : Session σ Unit) :=
  evolves_get_bind fun _ ↦ evolves_giveUp _ reason

theorem evolves_abort (error : PathError) :
    Evolves I twins lost (fun error' ↦ lost ∧ error' = error) (abort error : Session σ _) :=
  evolves_bind (keeps_giveUpAll _) (evolves_giveUpAll _) fun _ ↦
    evolves_bind (keeps_modify (fun _ ↦ rfl) (fun _ ↦ rfl) fun _ ↦ rfl)
      (evolves_modify fun _ ↦ ⟨rfl, rfl, rfl, rfl, rfl, rfl, id⟩) fun _ ↦ evolves_pure fun hlost ↦ ⟨hlost, rfl⟩

theorem evolves_halt : Evolves I twins lost (fun _ ↦ lost) (halt : Session σ _) :=
  evolves_bind (keeps_giveUpAll _) (evolves_giveUpAll _) fun _ ↦ evolves_get_bind fun _ e he ht hr hs ↦
    (evolves_abort _ e he ht hr hs).mono fun _ h ↦ ⟨h.1.mono And.left, h.2.1, id⟩

theorem evolves_checkMemory : Evolves I twins lost (fun _ ↦ lost) (checkMemory : Session σ Unit) := by
  refine evolves_get_bind fun e ↦ ?_
  split
  · exact evolves_pure id
  · refine evolves_bind (keeps_modify (fun _ ↦ rfl) (fun _ ↦ rfl) fun _ ↦ rfl)
      (evolves_modify fun _ ↦ ⟨rfl, rfl, rfl, rfl, rfl, rfl, id⟩) fun _ ↦ ?_
    dsimp only
    split
    · exact evolves_pure id
    · exact evolves_bind (keeps_modify (fun _ ↦ rfl) (fun _ ↦ rfl) fun _ ↦ rfl)
        (evolves_modify fun _ ↦ ⟨rfl, rfl, rfl, rfl, rfl, rfl, id⟩) fun _ ↦ evolves_giveUp _ _

theorem evolves_stops (counter : Nat) : Evolves I twins lost (fun _ ↦ lost) (stops counter : Session σ Bool) := by
  refine evolves_get_bind fun e ↦ ?_
  dsimp only
  split
  · exact evolves_pure id
  · exact evolves_bind (keeps_modify (fun _ ↦ rfl) (fun _ ↦ rfl) fun _ ↦ rfl)
      (evolves_modify fun _ ↦ ⟨rfl, rfl, rfl, rfl, rfl, rfl, id⟩) fun _ ↦ evolves_pure id

theorem evolves_return_abort (error : PathError)
    (h : lost → Exec.Strayed (.error error : Except PathError α)) : Evolves I twins lost Exec.Strayed
      (do return .error (← abort error) : Session σ (Except PathError α)) :=
  evolves_bind (keeps_abort error) (evolves_abort error) fun _ ↦ evolves_pure fun ⟨hlost, heq⟩ ↦ heq ▸ h hlost

/-! ## Runs in which there may be twins -/

theorem evolves_stepState (id : StateId) : Evolves I True False Exec.Strayed (stepState id : Session σ _) :=
  fun _ he ht hr hs ↦ (ends_stepState he ht hr hs (fun h ↦ absurd trivial h) id).mono fun _ h ↦ ⟨h.1, h.2, False.elim⟩

theorem evolves_step : Evolves I True False Exec.Strayed (step : Session σ _) := fun _ he ht _ hs ↦
  (ends_step he ht hs fun h ↦ absurd trivial h).mono fun _ h ↦ ⟨h.1, h.2, False.elim⟩

theorem evolves_followSeeds (fuel counter : Nat) (cursor : Option StateId) :
    Evolves I True False Exec.Strayed (followSeeds fuel counter cursor : Session σ _) := by
  have hfinish : Evolves I True False Exec.Strayed (followSeeds.finish : Session σ _) :=
    evolves_bind (keeps_modify (fun _ ↦ rfl) (fun _ ↦ rfl) fun _ ↦ rfl)
      (evolves_modify fun _ ↦ ⟨rfl, rfl, rfl, rfl, rfl, rfl, fun _ ↦ rfl⟩) fun _ ↦ evolves_pure False.elim
  induction fuel generalizing counter cursor with
  | zero => exact evolves_throw _
  | succ fuel ih =>
    refine evolves_get_bind fun e ↦ ?_
    split
    · exact hfinish
    · refine evolves_bind (keeps_stops counter) (evolves_stops counter) fun stopped ↦ ?_
      split
      · exact hfinish
      · split
        · exact hfinish
        · refine evolves_bind (keeps_stepState _) (evolves_stepState _) fun r ↦ ?_
          cases r with
          | error error => exact evolves_pure .of_error
          | ok report => exact (ih _ _).of_not Exec.not_strayed_ok

theorem evolves_step_explore {fuel counter : Nat}
    (h : Evolves I True False Exec.Strayed (explore fuel counter : Session σ _)) :
    Evolves I True False Exec.Strayed (do
      match ← step with
      | .error error => return .error (← abort error)
      | .ok _ => explore fuel counter : Session σ (Except PathError Unit)) := by
  refine evolves_bind keeps_step evolves_step fun r ↦ ?_
  cases r with
  | error error => exact evolves_return_abort error .of_error
  | ok report => exact h.of_not Exec.not_strayed_ok

theorem evolves_explore (fuel counter : Nat) :
    Evolves I True False Exec.Strayed (explore fuel counter : Session σ _) := by
  induction fuel generalizing counter with
  | zero => exact evolves_throw _
  | succ fuel ih =>
    have hstep := evolves_step_explore (ih (counter + 1))
    refine evolves_get_bind fun e ↦ ?_
    split
    · exact evolves_pure False.elim
    · refine evolves_bind (keeps_stops counter) (evolves_stops counter) fun stopped ↦ ?_
      split
      · exact evolves_bind keeps_halt evolves_halt fun _ ↦ evolves_pure False.elim
      · dsimp only
        split
        · exact evolves_bind keeps_checkMemory evolves_checkMemory fun _ ↦ hstep
        · exact hstep

theorem evolves_run : Evolves I True False Exec.Strayed (run : Session σ _) := by
  refine evolves_bind (keeps_update none) (evolves_update none) fun _ ↦ evolves_get_bind fun e ↦ ?_
  dsimp only
  split
  · exact evolves_explore _ _
  · refine evolves_bind (keeps_followSeeds _ _ _) (evolves_followSeeds _ _ _) fun r ↦ ?_
    split
    · exact evolves_return_abort _ .of_error
    · rename_i hr
      refine Evolves.of_not ?_ fun ⟨error, herror, _⟩ ↦ hr error herror
      refine evolves_bind (keeps_stops 0) (evolves_stops 0) fun stopped ↦ ?_
      split
      · exact evolves_bind keeps_halt evolves_halt fun _ ↦ evolves_pure False.elim
      · refine evolves_get_bind fun e ↦ ?_
        split
        · exact evolves_bind (keeps_giveUpAll _) (evolves_giveUpAll _) fun _ ↦ evolves_pure False.elim
        · exact evolves_explore _ _

end

theorem Command.perform_eq (c : Command) : (c.perform : Session σ Unit) = (do let _ ← c.outcome) := by
  cases c <;> simp [perform, outcome]

theorem ends_outcome (c : Command) (he : e.Sound I) (htidy : e.Tidy) (hremoved : e.removed = [])
    (hschedule : e.config.forkOnSchedule = true → twins) (hplain : ¬twins → e.Plain ∧ c ≠ .run) :
    Ends (fun _ ↦ True) (c.outcome.run e) fun p ↦
      e.Develops I twins (Exec.Strayed p.1) p.2 ∧ p.2.removed = [] := by
  have hend {α : Type} {x : Session σ α} (hkeeps : Keeps I x) (hx : Evolves I twins False (fun _ ↦ False) x) :
      Ends (fun _ ↦ True) ((do
        let _ ← x
        return .ok () : Session σ (Except PathError Unit)).run e) fun p ↦
        e.Develops I twins (Exec.Strayed p.1) p.2 ∧ p.2.removed = [] :=
    (evolves_bind hkeeps hx (fun _ ↦ evolves_pure False.elim) e he htidy hremoved hschedule).mono fun _ h ↦
      ⟨h.1, h.2.1⟩
  have hend' {α : Type} {x : Session σ α} (hkeeps : Keeps I x) (hx : Evolves I twins False (fun _ ↦ False) x) :
      Ends (fun _ ↦ True) ((do
        let _ ← (do let _ ← x : Session σ Unit)
        return .ok () : Session σ (Except PathError Unit)).run e) fun p ↦
        e.Develops I twins (Exec.Strayed p.1) p.2 ∧ p.2.removed = [] :=
    hend (keeps_bind hkeeps fun _ ↦ keeps_pure _) (evolves_bind hkeeps hx fun _ ↦ evolves_pure id)
  cases c with
  | update current => exact hend' (keeps_update current) (evolves_update current)
  | step =>
    exact ends_run_bind (ends_step he htidy hschedule fun h ↦ (hplain h).1) fun _ _ h ↦
      ends_pure ⟨h.1.mono .map, h.2⟩
  | stepState id =>
    exact ends_run_bind (ends_stepState he htidy hremoved hschedule (fun h ↦ (hplain h).1) id) fun _ _ h ↦
      ends_pure ⟨h.1.mono .map, h.2⟩
  | poll counter => exact hend' (keeps_stops counter) (evolves_stops counter)
  | checkMemory => exact hend keeps_checkMemory evolves_checkMemory
  | giveUp ids reason => exact hend (keeps_giveUp ids reason) (evolves_giveUp ids reason)
  | halt => exact hend' keeps_halt evolves_halt
  | run =>
    obtain rfl : twins = True := eq_true (by_contra fun h ↦ (hplain h).2 rfl)
    exact (evolves_run e he htidy hremoved hschedule).mono fun _ h ↦ ⟨h.1, h.2.1⟩

theorem ends_perform (c : Command) (he : e.Sound I) (htidy : e.Tidy) (hremoved : e.removed = [])
    (hschedule : e.config.forkOnSchedule = true → twins) (hplain : ¬twins → e.Plain ∧ c ≠ .run) :
    Ends (fun _ ↦ True) (c.perform.run e) fun p ↦ e.Develops I twins True p.2 ∧ p.2.removed = [] := by
  rw [c.perform_eq]
  exact ends_run_bind (ends_outcome c he htidy hremoved hschedule hplain) fun _ _ h ↦
    ends_pure ⟨h.1.mono fun _ ↦ trivial, h.2⟩

/-! ## The start -/

/-- There is one state at most, which has taken no side, and nothing was reported. -/
structure Fresh (e : Executor σ) : Prop where
  states : ∀ (id : StateId) (s : State), e.states[id]? = some s → id = 0 ∧ s.id = 0 ∧ s.path = []
  next_eq : e.nextStateId = 1
  removed_eq : e.removed = []
  cases_eq : e.cases = #[]

theorem alike_writeArguments (arguments : List Expr) (s : State) :
    Ends (fun _ ↦ True) (writeArguments arguments s) s.Alike :=
  State.alike_foldlM _ fun s _ ↦ s.alike_write _ _

theorem Prepared.fresh (h : Prepared I e) : e.Fresh := by
  induction h with
  | @start program config solver watchdog e hexact he =>
    refine Ends.of_eq (F := fun _ ↦ True) (x := Executor.start program config solver watchdog) ?_ he
    refine ends_bind (ends_any _) fun entry _ ↦ ends_bind (ends_any _) fun p _ ↦
      ends_bind (ends_any _) fun constants _ ↦ ends_bind (alike_writeArguments _ _) fun root hroot ↦
        ends_pure ⟨fun id s hs ↦ ?_, rfl, rfl, rfl⟩
    have hs : (Std.TreeMap.ofList [((0 : StateId), root)])[id]? = some s := hs
    rw [Std.TreeMap.ofList_singleton, Focus.getElem?_insert_state] at hs
    split at hs
    · obtain rfl := Option.some.inj hs
      exact ⟨Eq.symm ‹_›, hroot.id_eq, hroot.path_eq⟩
    · simp at hs
  | @arguments e e' arguments _ _ he' ih =>
    refine Ends.of_eq (F := fun _ ↦ True) (x := e.withArguments arguments) ?_ he'
    refine ends_bind (ends_any _) fun entry _ ↦ ?_
    split
    · exact ends_pure ih
    · rename_i root hroot
      refine ends_bind (alike_writeArguments _ root) fun root' hroot' ↦
        ends_pure ⟨fun id s hs ↦ ?_, ih.next_eq, ih.removed_eq, ih.cases_eq⟩
      dsimp only at hs
      rw [Focus.getElem?_insert_state] at hs
      split at hs
      · obtain rfl := Option.some.inj hs
        obtain ⟨-, hid, hpath⟩ := ih.states 0 root hroot
        exact ⟨Eq.symm ‹_›, hroot'.id_eq.trans hid, hroot'.path_eq.trans hpath⟩
      · exact ih.states id s hs
  | @seeds e _ seeds ih =>
    unfold withSeeds
    split
    · exact ih
    · exact ⟨ih.states, ih.next_eq, ih.removed_eq, ih.cases_eq⟩
  | settings _ _ _ _ _ _ ih => exact ⟨ih.states, ih.next_eq, ih.removed_eq, ih.cases_eq⟩

theorem Fresh.tidy (h : e.Fresh) : e.Tidy := by
  refine ⟨fun id s hs ↦ ?_, by simp [h.removed_eq]⟩
  obtain ⟨rfl, hid, -⟩ := h.states id s hs
  exact ⟨hid, h.next_eq ▸ Nat.zero_lt_one⟩

theorem Reached.tidy (h : Reached I e) : e.Tidy ∧ e.removed = [] := by
  induction h with
  | prepared h => exact ⟨h.fresh.tidy, h.fresh.removed_eq⟩
  | @perform e e' h c he' ih =>
    have hperform : Ends (fun _ ↦ True) (c.perform.run e) fun p ↦ e.Develops I True True p.2 ∧ p.2.removed = [] :=
      ends_perform c h.sound ih.1 ih.2 (fun _ ↦ trivial) fun h ↦ (h trivial).elim
    exact (hperform.of_eq he').imp_left fun h ↦ h.tidy ih.1

/-! ## Exploration without twins -/

/-- A machine that was set up to explore no schedules, or that comes out of such a one after any number of
commands, each of them while the next instructions of all live states were plain. -/
inductive Explored (I : Inputs) : Executor σ → Prop
  | prepared {e : Executor σ} (h : Prepared I e) (hschedule : e.config.forkOnSchedule = false) : Explored I e
  | perform {e e' : Executor σ} (h : Explored I e) (hplain : e.Plain) (c : Command) (hc : c ≠ .run)
      (he' : c.perform.run e = .ok ((), e')) : Explored I e'

/-- What holds of all machines in such an exploration. -/
structure Orderly (I : Inputs) (e : Executor σ) : Prop where
  sound : e.Sound I
  tidy : e.Tidy
  removed_eq : e.removed = []
  schedule : e.config.forkOnSchedule = false
  exclusive : e.Exclusive I

theorem Explored.orderly (h : Explored I e) : e.Orderly I := by
  induction h with
  | @prepared e h hschedule =>
    have hfresh := h.fresh
    refine ⟨h.sound, hfresh.tidy, hfresh.removed_eq, hschedule, ?_⟩
    intro a id id' s s' hne _ _ hs hs'
    exact absurd ((hfresh.states id s hs).1.trans (hfresh.states id' s' hs').1.symm) hne
  | @perform e e' _ hplain c hc he' ih =>
    have hperform : Ends (fun _ ↦ True) (c.perform.run e) fun p ↦ e.Develops I False True p.2 ∧ p.2.removed = [] :=
      ends_perform c ih.sound ih.tidy ih.removed_eq (by simp [ih.schedule]) fun _ ↦ ⟨hplain, hc⟩
    obtain ⟨hdevelops, hremoved⟩ := hperform.of_eq he'
    exact ⟨(keeps_perform c e ih.sound).of_eq he', hdevelops.tidy ih.tidy, hremoved,
      (congrArg _ (hdevelops.config_eq ih.tidy)).trans ih.schedule, hdevelops.exclusive ih.tidy ih.exclusive⟩

/-- No two live states have a solution in common. So each solution of what two of them are merged into is one
of exactly one of the two. -/
theorem exclusive_of_explored {id id' : StateId} {s t : State} (h : Explored I e) (hne : id ≠ id')
    (hs : e.states[id]? = some s) (ht : e.states[id']? = some t) :
    (∀ a, I.Solves a s.constraints → ¬I.Solves a t.constraints) ∧ ∀ merged, s.merge t = .ok (some merged) →
      ∀ a, I.Solves a merged.constraints → Xor (I.Solves a s.constraints) (I.Solves a t.constraints) := by
  obtain ⟨hsound, -, hremoved, -, hexclusive⟩ := h.orderly
  have hapart (a : Assignment) : I.Solves a s.constraints → ¬I.Solves a t.constraints :=
    hexclusive a id id' s t hne (by simp [hremoved]) (by simp [hremoved]) hs ht
  refine ⟨hapart, fun merged hmerged a ha ↦ ?_⟩
  have hmerge := State.ends_merge (I := I) (hsound.states id s hs).valid (hsound.states id' t ht).valid
  obtain ⟨-, -, hsolves⟩ := hmerge.of_eq hmerged merged rfl
  obtain hs | ht := hsolves a ha
  · exact .inl ⟨hs, hapart a hs⟩
  · exact .inr ⟨ht, fun hs ↦ hapart a hs ht⟩

/-- After the first step of a program that tests its parameter there is a state for even inputs and one for
odd ones. -/
theorem exclusive_of_explored_even : ∃ (e : Executor Unit) (s t : State), Explored .all e ∧
    e.states[0]? = some s ∧ e.states[1]? = some t ∧
      (∀ a, Inputs.all.Solves a s.constraints → ¬Inputs.all.Solves a t.constraints) ∧
        ∀ merged, s.merge t = .ok (some merged) → ∀ a, Inputs.all.Solves a merged.constraints →
          Xor (Inputs.all.Solves a s.constraints) (Inputs.all.Solves a t.constraints) := by
  have hrun : (do
      let e ← start testing {} { backend := .sampling samples, state := () } .never
      let e ← e.withArguments [even]
      let q ← (Command.stepState 0).perform.run e
      return (decide (e.Plain ∧ e.config.forkOnSchedule = false), q.2.states[0]?.isSome, q.2.states[1]?.isSome) :
        Checked (Bool × Bool × Bool)) = .ok (true, true, true) := by
    decide +kernel
  obtain ⟨e₀, hstart, hrun⟩ := bind_eq_ok.1 hrun
  obtain ⟨e, harguments, hrun⟩ := bind_eq_ok.1 hrun
  obtain ⟨⟨⟨⟩, e'⟩, hstep, hrun⟩ := bind_eq_ok.1 hrun
  simp only [pure_eq_ok, Prod.mk.injEq, decide_eq_true_eq, Option.isSome_iff_exists] at hrun
  obtain ⟨⟨hplain, hschedule⟩, ⟨s, hs⟩, t, ht⟩ := hrun
  have hexplored : Explored .all e' :=
    .perform (.prepared (prepared_testing hstart harguments) hschedule) hplain (.stepState 0) (by rintro ⟨⟩) hstep
  exact ⟨e', s, t, hexplored, hs, ht, exclusive_of_explored hexplored (by decide) hs ht⟩

end Executor

end Symex
