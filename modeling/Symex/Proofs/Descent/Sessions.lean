import Symex.Proofs.Descent.Instructions
import Symex.Proofs.Integrity.Runs

namespace Symex

open Checked

variable {σ α β : Type} {p : Program}

namespace Executor

variable {e e' e'' : Executor σ} {id : StateId} {s : State}

/-- The tree was made by operations that were allowed, and every live state is at a leaf, unless it has ended. -/
structure Seated (e : Executor σ) : Prop where
  grown : ∃ h, ProcessTree.Grown h e.tree ∧ ∀ (id : StateId) (s : State), e.states[id]? = some s →
    s.Sits e.tree ∨ s.Absorbed h e.removed
  apart : ∀ (id : StateId) (s : State), e.states[id]? = some s → s.Apart
  id_lt : ∀ (id : StateId) (s : State), e.states[id]? = some s → s.id < e.nextStateId
  named : ∀ (id : StateId) (s : State), e.states[id]? = some s → s.id = id

/-- The states end one after another, and each of them is at a live leaf then, or at a node that a merge
absorbed. -/
def Retires (e : Executor σ) : List StateId → Prop
  | [] => True
  | id :: rest => (∀ s, e.states[id]? = some s → ∃ h n, ProcessTree.Grown h e.tree ∧ s.node = some n ∧
      ((n, id) ∈ h.live ∨ n ∈ h.absorbed)) ∧ (e.drop id).Retires rest

namespace Seated

theorem withSettings (he : e.Seated) (htree : e'.tree = e.tree) (hremoved : e'.removed = e.removed)
    (hnext : e'.nextStateId = e.nextStateId) (hstates : e'.states = e.states) : e'.Seated where
  grown := by
    obtain ⟨h, hgrown, hseats⟩ := he.grown
    refine ⟨h, htree ▸ hgrown, fun id s hs ↦ ?_⟩
    rw [htree, hremoved]
    exact hseats id s (hstates ▸ hs)
  apart id s hs := he.apart id s (hstates ▸ hs)
  id_lt id s hs := hnext ▸ he.id_lt id s (hstates ▸ hs)
  named id s hs := he.named id s (hstates ▸ hs)

theorem focusOn (he : e.Seated) (hs : e.states[id]? = some s) : (e.focusOn id s).Seated [] := by
  have hknown : ∀ s', (e.focusOn id s).Knows [] s' → ∃ id' : StateId, e.states[id']? = some s' := by
    intro s' hs'
    rcases hs' with rfl | hs' | ⟨id', hs'⟩
    · exact ⟨id, hs⟩
    · cases hs'
    · rw [Executor.focusOn, Focus.getElem?_erase_state] at hs'
      split at hs'
      · cases hs'
      · exact ⟨id', hs'⟩
  obtain ⟨h, hgrown, hseats⟩ := he.grown
  refine ⟨⟨h, hgrown, fun s' hs' ↦ ?_⟩, fun s' hs' ↦ ?_, fun s' hs' ↦ ?_, fun id' s' hs' ↦ ?_,
    List.nodup_singleton _, fun s' hs' ↦ ?_⟩
  · obtain ⟨id', hs'⟩ := hknown s' hs'
    exact hseats id' s' hs'
  · obtain ⟨id', hs'⟩ := hknown s' hs'
    exact he.apart id' s' hs'
  · obtain ⟨id', hs'⟩ := hknown s' hs'
    exact he.id_lt id' s' hs'
  · rw [Executor.focusOn, Focus.getElem?_erase_state] at hs'
    split at hs'
    · cases hs'
    · exact he.named id' s' hs'
  · obtain rfl := List.mem_singleton.1 hs'
    rw [Executor.focusOn, Focus.getElem?_erase_state, if_pos]
    exact (he.named id _ hs).symm

theorem of_focus {f : Focus σ} (hf : f.Seated []) (hid : f.state.id = id) :
    Seated { f.executor with states := f.executor.states.insert id f.state } := by
  have hknown : ∀ (id' : StateId) (s' : State), (f.executor.states.insert id f.state)[id']? = some s' →
      f.Knows [] s' ∧ s'.id = id' := by
    intro id' s' hs'
    rw [Focus.getElem?_insert_state] at hs'
    split at hs'
    · rename_i heq
      obtain rfl := Option.some.inj hs'
      exact ⟨.inl rfl, hid.trans heq⟩
    · exact ⟨.inr (.inr ⟨id', hs'⟩), hf.named id' s' hs'⟩
  obtain ⟨h, hgrown, hseats⟩ := hf.grown
  exact ⟨⟨h, hgrown, fun id' s' hs' ↦ hseats s' (hknown id' s' hs').1⟩,
    fun id' s' hs' ↦ hf.apart s' (hknown id' s' hs').1, fun id' s' hs' ↦ hf.id_lt s' (hknown id' s' hs').1,
    fun id' s' hs' ↦ (hknown id' s' hs').2⟩

theorem sits (he : e.Seated) (hr : e.removed = []) (hs : e.states[id]? = some s) : s.Sits e.tree := by
  obtain ⟨h, -, hseats⟩ := he.grown
  refine (hseats id s hs).resolve_right fun habsorbed ↦ ?_
  rw [State.Absorbed, hr] at habsorbed
  exact List.not_mem_nil habsorbed.1

theorem drop (he : e.Seated) (id : StateId) : (e.drop id).Seated ∧ ∀ s, e.states[id]? = some s →
    ∃ h n, ProcessTree.Grown h e.tree ∧ s.node = some n ∧ ((n, id) ∈ h.live ∨ n ∈ h.absorbed) := by
  obtain ⟨h, hgrown, hseats⟩ := he.grown
  have hleft : ∀ (id' : StateId) (s' : State), (e.drop id).states[id']? = some s' →
      id' ≠ id ∧ e.states[id']? = some s' := by
    intro id' s' hs'
    rw [Executor.drop, Focus.getElem?_erase_state] at hs'
    split at hs'
    · cases hs'
    · exact ⟨fun heq ↦ ‹¬_› heq.symm, hs'⟩
  have hend (h' : ProcessTree.History) (hgrown' : ProcessTree.Grown h' (e.drop id).tree)
      (hseats' : ∀ (id' : StateId) (s' : State), id' ≠ id → e.states[id']? = some s' →
        s'.Sits (e.drop id).tree ∨ s'.Absorbed h' e.removed) : (e.drop id).Seated :=
    ⟨⟨h', hgrown', fun id' s' hs' ↦ hseats' id' s' (hleft id' s' hs').1 (hleft id' s' hs').2⟩,
      fun id' s' hs' ↦ he.apart id' s' (hleft id' s' hs').2, fun id' s' hs' ↦ he.id_lt id' s' (hleft id' s' hs').2,
      fun id' s' hs' ↦ he.named id' s' (hleft id' s' hs').2⟩
  cases hs : e.states[id]? with
  | none =>
    have htree : (e.drop id).tree = e.tree := by rw [Executor.drop, hs, Option.bind_none]
    refine ⟨hend h (htree ▸ hgrown) fun id' s' _ hs' ↦ ?_, fun s hs ↦ absurd hs (by simp)⟩
    rw [htree]
    exact hseats id' s' hs'
  | some s =>
    have hterminate (n : NodeId) (hn : s.node = some n) : (e.drop id).tree = e.tree.terminate n := by
      rw [Executor.drop, hs, Option.bind_some, hn]
    rcases hseats id s hs with ⟨n, hn, hleaf⟩ | ⟨-, n, hn, hmem⟩
    · have htree := hterminate n hn
      rw [he.named id s hs] at hleaf
      have hlive : (n, id) ∈ h.live := hgrown.linked.leaves_eq ▸ hleaf
      have hgrown' := hgrown.terminate hlive
      refine ⟨hend (h.terminate n) (htree ▸ hgrown') fun id' s' hne hs' ↦ (hseats id' s' hs').imp_left ?_, ?_⟩
      · rintro ⟨m, hm, hmleaf⟩
        refine ⟨m, hm, ?_⟩
        rw [htree, hgrown'.linked.leaves_eq]
        refine List.mem_filter.2 ⟨hgrown.linked.leaves_eq ▸ hmleaf, decide_eq_true ?_⟩
        rintro rfl
        exact hne ((he.named id' s' hs').symm.trans (ProcessTree.eq_of_mem_leaves hmleaf hleaf))
      · rintro _ ⟨⟩
        exact ⟨h, n, hgrown, hn, .inl hlive⟩
    · have htree := hterminate n hn
      have hgrown' := hgrown.release hmem
      refine ⟨hend h (htree ▸ hgrown') fun id' s' _ hs' ↦ (hseats id' s' hs').imp_left ?_, ?_⟩
      · rintro ⟨m, hm, hmleaf⟩
        refine ⟨m, hm, ?_⟩
        rw [htree, hgrown'.linked.leaves_eq]
        exact hgrown.linked.leaves_eq ▸ hmleaf
      · rintro _ ⟨⟩
        exact ⟨h, n, hgrown, hn, .inr hmem⟩

theorem retires (he : e.Seated) (ids : List StateId) : e.Retires ids ∧ (ids.foldl Executor.drop e).Seated := by
  induction ids generalizing e with
  | nil => exact ⟨trivial, he⟩
  | cons id rest ih =>
    obtain ⟨he', hone⟩ := he.drop id
    exact ⟨⟨hone, (ih he').1⟩, (ih he').2⟩

end Seated

/-! ## Visits -/

theorem seated_visit (he : e.Seated) {work : Exec σ α} {q : Prop} (hwork : work.Seats True q)
    (hfirm : ∀ s, e.states[id]? = some s → s.Sits e.tree) :
    Ends (· ≠ .misuse) ((visit id work).run e) fun r ↦ r.2.Seated :=
  ends_run_visit (fun _ ↦ he) fun s hs ↦ (hwork [] _ (he.focusOn hs) fun _ ↦ hfirm s hs).mono fun _ _ h ↦
    .of_focus h.1.seated (h.1.id_eq.trans (he.named id s hs))

theorem seated_visit_terminateEarly (he : e.Seated) (id : StateId) (reason : String) :
    Ends (· ≠ .misuse) ((visit id (Exec.terminateEarly reason)).run e) fun r ↦ r.2.Seated :=
  ends_run_visit (fun _ ↦ he) fun s hs ↦ (Exec.seats_terminateWith (p := False) _ _ [] _ (he.focusOn hs)
    False.elim).mono fun _ _ h ↦ .of_focus h.1.seated (h.1.id_eq.trans (he.named id s hs))

/-- What is done between two updates: a state is stepped, and states are given up. -/
inductive Proceeds (e : Executor σ) : Executor σ → Prop
  | start : Proceeds e e
  | step {id : StateId} {r : Option (Except PathError Unit)} {e' : Executor σ}
      (hrun : (visit id Exec.step).run e = .ok (r, e')) : Proceeds e e'
  | giveUp {id : StateId} {reason : String} {r : Option (Except PathError Unit)} {e' e'' : Executor σ}
      (h : Proceeds e e') (hrun : (visit id (Exec.terminateEarly reason)).run e' = .ok (r, e'')) : Proceeds e e''

theorem Proceeds.seated (he : e.Seated) (hr : e.removed = []) (h : e.Proceeds e') : e'.Seated := by
  induction h with
  | start => exact he
  | step hrun => exact (seated_visit he Exec.seats_step fun s hs ↦ he.sits hr hs).of_eq hrun
  | giveUp _ hrun ih => exact (seated_visit_terminateEarly ih _ _).of_eq hrun

/-! ## Sessions -/

/-- From a machine in which no state has ended the work leads to such a one, with all states at leaves. -/
def Seats (x : Session σ α) : Prop :=
  ∀ e : Executor σ, e.Seated → e.removed = [] → Ends (· ≠ .misuse) (x.run e) fun q ↦ q.2.Seated ∧ q.2.removed = []

section

variable {x : Session σ α} {k : α → Session σ β}

theorem seats_pure (a : α) : Seats (pure a : Session σ α) := fun _ he hr ↦ ends_pure ⟨he, hr⟩

theorem seats_throw {fault : Fault} (h : fault ≠ .misuse) : Seats (throw fault : Session σ α) := fun _ _ _ ↦
  ends_throw h

theorem seats_bind (hx : Seats x) (hk : ∀ a, Seats (k a)) : Seats (x >>= k) := fun e he hr ↦
  ends_run_bind (hx e he hr) fun a e' h ↦ hk a e' h.1 h.2

theorem seats_get_bind {k : Executor σ → Session σ β} (hk : ∀ e, Seats (k e)) : Seats (get >>= k) :=
  fun e he hr ↦ hk e e he hr

theorem seats_modify_bind {f : Executor σ → Executor σ} {k : PUnit → Session σ β}
    (h : ∀ e : Executor σ, e.Unmoved (f e)) (htree : ∀ e : Executor σ, (f e).tree = e.tree)
    (hk : ∀ u, Seats (k u)) : Seats (modify f >>= k) := fun e he hr ↦
  hk ⟨⟩ (f e) (he.withSettings (htree e) (h e).removed_eq (h e).next_eq (h e).states_eq) ((h e).removed_eq.trans hr)

theorem foldl_drop_removed (ids : List StateId) (e : Executor σ) : (ids.foldl drop e).removed = e.removed := by
  induction ids generalizing e with
  | nil => rfl
  | cons id rest ih => exact ih (e.drop id)

theorem seated_update (current : Option StateId) (he : e.Seated) :
    Ends (· ≠ .misuse) ((update current).run e) fun q ↦ q.2.Seated ∧ q.2.removed = [] := by
  have hsettles := (ends_update current e).of_eq rfl
  have he' := (he.retires e.removed).2
  have hremoved := foldl_drop_removed e.removed e
  refine ends_pure ⟨⟨?_, he'.apart, he'.id_lt, he'.named⟩, rfl⟩
  obtain ⟨h, hgrown, hseats⟩ := he'.grown
  refine ⟨h, hgrown, fun id s hs ↦ .inl ((hseats id s hs).resolve_right fun habsorbed ↦ ?_)⟩
  have hmem : id ∈ e.removed := he'.named id s hs ▸ hremoved ▸ habsorbed.1
  have hnone := hsettles.states_eq id
  rw [if_pos hmem] at hnone
  exact nomatch hnone.symm.trans hs

theorem seats_update (current : Option StateId) : Seats (update current : Session σ _) := fun _ he _ ↦
  seated_update current he

theorem seats_giveUp (ids : List StateId) (reason : String) : Seats (giveUp ids reason : Session σ Unit) := by
  have hvisits : ∀ e : Executor σ, e.Seated → Ends (· ≠ .misuse) ((forIn ids PUnit.unit fun id _ ↦ do
      let _ ← visit id (Exec.terminateEarly reason)
      pure (ForInStep.yield PUnit.unit) : Session σ PUnit).run e) fun q ↦ q.2.Seated := by
    induction ids with
    | nil => exact fun e he ↦ ends_pure he
    | cons id ids ih =>
      intro e he
      rw [List.forIn_cons]
      refine ends_bind (P := fun q ↦ q.1 = ForInStep.yield PUnit.unit ∧ q.2.Seated) ?_ ?_
      · exact ends_bind (seated_visit_terminateEarly he id reason) fun q hq ↦ ends_pure ⟨rfl, hq⟩
      · rintro ⟨_, e'⟩ ⟨rfl, he'⟩
        exact ih e' he'
  exact fun e he _ ↦ ends_run_bind (hvisits e he) fun _ e' he' ↦
    ends_run_bind (seated_update none he') fun _ _ h ↦ ends_pure h

theorem seats_giveUpAll (reason : String) : Seats (giveUpAll reason : Session σ Unit) :=
  seats_get_bind fun _ ↦ seats_giveUp _ reason

theorem seats_abort (error : PathError) : Seats (abort error : Session σ _) :=
  seats_bind (seats_giveUpAll _) fun _ ↦ seats_modify_bind (fun _ ↦ ⟨rfl, rfl, rfl, rfl, rfl, rfl⟩) (fun _ ↦ rfl)
    fun _ ↦ seats_pure _

theorem seats_halt : Seats (halt : Session σ _) :=
  seats_bind (seats_giveUpAll _) fun _ ↦ seats_get_bind fun _ ↦ seats_abort _

theorem seats_checkMemory : Seats (checkMemory : Session σ Unit) := by
  refine seats_get_bind fun e ↦ ?_
  split
  · exact seats_pure _
  · refine seats_modify_bind (fun _ ↦ ⟨rfl, rfl, rfl, rfl, rfl, rfl⟩) (fun _ ↦ rfl) fun _ ↦ ?_
    dsimp only
    split
    · exact seats_pure _
    · exact seats_modify_bind (fun _ ↦ ⟨rfl, rfl, rfl, rfl, rfl, rfl⟩) (fun _ ↦ rfl) fun _ ↦ seats_giveUp _ _

theorem seats_stops (counter : Nat) : Seats (stops counter : Session σ Bool) := by
  refine seats_get_bind fun e ↦ ?_
  dsimp only
  split
  · exact seats_pure _
  · exact seats_modify_bind (fun _ ↦ ⟨rfl, rfl, rfl, rfl, rfl, rfl⟩) (fun _ ↦ rfl) fun _ ↦ seats_pure _

theorem seats_stepState (id : StateId) : Seats (stepState id : Session σ _) := by
  intro e he hr
  refine ends_run_bind (seated_visit he Exec.seats_step fun s hs ↦ he.sits hr hs) fun o e' he' ↦ ?_
  cases o with
  | none => exact ends_throw nofun
  | some result => exact ends_run_bind (seated_update _ he') fun _ _ h ↦ ends_pure h

theorem seats_step : Seats (step : Session σ _) := by
  refine seats_bind (seats_update none) fun _ ↦ seats_get_bind fun e ↦ ?_
  dsimp only
  refine seats_modify_bind (fun _ ↦ ⟨rfl, rfl, rfl, rfl, rfl, rfl⟩) (fun _ ↦ rfl) fun _ ↦ ?_
  split
  · exact seats_pure _
  · exact seats_bind (seats_stepState _) fun _ ↦ seats_pure _

/-! ## Runs -/

theorem seats_followSeeds (fuel counter : Nat) (cursor : Option StateId) :
    Seats (followSeeds fuel counter cursor : Session σ _) := by
  have hfinish : Seats (followSeeds.finish : Session σ _) :=
    seats_modify_bind (fun _ ↦ ⟨rfl, rfl, rfl, rfl, rfl, rfl⟩) (fun _ ↦ rfl) fun _ ↦ seats_pure _
  induction fuel generalizing counter cursor with
  | zero => exact seats_throw nofun
  | succ fuel ih =>
    refine seats_get_bind fun e ↦ ?_
    split
    · exact hfinish
    · refine seats_bind (seats_stops counter) fun stopped ↦ ?_
      split
      · exact hfinish
      · split
        · exact hfinish
        · refine seats_bind (seats_stepState _) fun r ↦ ?_
          cases r with
          | error error => exact seats_pure _
          | ok report => exact ih _ _

theorem seats_end {x : Session σ PathError} (hx : Seats x) :
    Seats (do return .error (← x) : Session σ (Except PathError Unit)) :=
  seats_bind hx fun _ ↦ seats_pure _

theorem seats_goOn {go : Session σ (Except PathError Unit)} (hgo : Seats go) : Seats (do
    match ← step with
    | .error error => return .error (← abort error)
    | .ok _ => go : Session σ (Except PathError Unit)) := by
  refine seats_bind seats_step fun r ↦ ?_
  cases r with
  | error error => exact seats_end (seats_abort error)
  | ok report => exact hgo

theorem seats_explore (fuel counter : Nat) : Seats (explore fuel counter : Session σ _) := by
  induction fuel generalizing counter with
  | zero => exact seats_throw (by decide)
  | succ fuel ih =>
    refine seats_get_bind fun e ↦ ?_
    split
    · exact seats_pure _
    · refine seats_bind (seats_stops counter) fun stopped ↦ ?_
      split
      · exact seats_end seats_halt
      · dsimp only
        split
        · exact seats_bind seats_checkMemory fun _ ↦ seats_goOn (ih _)
        · exact seats_goOn (ih _)

theorem seats_run : Seats (run : Session σ _) := by
  refine seats_bind (seats_update none) fun _ ↦ seats_get_bind fun e ↦ ?_
  dsimp only
  split
  · exact seats_explore _ _
  · refine seats_bind (seats_followSeeds _ _ _) fun r ↦ ?_
    split
    · exact seats_end (seats_abort _)
    · refine seats_bind (seats_stops 0) fun stopped ↦ ?_
      split
      · exact seats_end seats_halt
      · refine seats_get_bind fun e ↦ ?_
        split
        · exact seats_bind (seats_giveUpAll _) fun _ ↦ seats_pure _
        · exact seats_explore _ _

theorem seats_outcome (c : Command) : Seats (c.outcome : Session σ _) := by
  cases c with
  | update current => exact seats_bind (seats_bind (seats_update current) fun _ ↦ seats_pure _) fun _ ↦ seats_pure _
  | step => exact seats_bind seats_step fun _ ↦ seats_pure _
  | stepState id => exact seats_bind (seats_stepState id) fun _ ↦ seats_pure _
  | poll counter => exact seats_bind (seats_bind (seats_stops counter) fun _ ↦ seats_pure _) fun _ ↦ seats_pure _
  | checkMemory => exact seats_bind seats_checkMemory fun _ ↦ seats_pure _
  | giveUp ids reason => exact seats_bind (seats_giveUp ids reason) fun _ ↦ seats_pure _
  | halt => exact seats_bind (seats_bind seats_halt fun _ ↦ seats_pure _) fun _ ↦ seats_pure _
  | run => exact seats_run

end

end Executor

end Symex
