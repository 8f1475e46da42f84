import Symex.Proofs.Lineage.Runs

namespace Symex

open Checked

variable {σ α β : Type} {F : Fault → Prop} {among between : Executor σ → Prop}

namespace Executor

/-- What holds between commands, and what is left of it among the visits of one command. Faults are as `F` says. -/
structure Upholds (F : Fault → Prop) (among between : Executor σ → Prop) : Prop where
  among_of_between : ∀ e, between e → among e
  step : ∀ e id, between e → Ends F ((visit id Exec.step).run e) fun q ↦ among q.2
  giveUp : ∀ e id reason, among e → Ends F ((visit id (Exec.terminateEarly reason)).run e) fun q ↦ among q.2
  update : ∀ e current, among e → Ends F ((update current).run e) fun q ↦ between q.2
  settings : ∀ (e : Executor σ) searcher watchdog rng atMemoryLimit errors, between e →
    between { e with searcher, watchdog, rng, atMemoryLimit, errors }
  unseeded : ∀ e : Executor σ, between e → between { e with seeds := {} }
  faults : F .ended ∧ F .overflow

def Upheld (F : Fault → Prop) (between : Executor σ → Prop) (x : Session σ α) : Prop :=
  ∀ e, between e → Ends F (x.run e) fun q ↦ between q.2

section

variable {x : Session σ α} {k : α → Session σ β}

theorem upheld_pure (a : α) : Upheld F between (pure a : Session σ α) := fun _ he ↦ ends_pure he

theorem upheld_throw {fault : Fault} (h : F fault) : Upheld F between (throw fault : Session σ α) := fun _ _ ↦
  ends_throw h

theorem upheld_bind (hx : Upheld F between x) (hk : ∀ a, Upheld F between (k a)) :
    Upheld F between (x >>= k) := fun e he ↦
  ends_run_bind (hx e he) fun a e' h ↦ hk a e' h

theorem upheld_get_bind {k : Executor σ → Session σ β} (hk : ∀ e, Upheld F between (k e)) :
    Upheld F between (get >>= k) := fun e he ↦ hk e e he

theorem upheld_modify {f : Executor σ → Executor σ} (h : ∀ e, between e → between (f e)) :
    Upheld F between (modify f : Session σ PUnit) := fun e he ↦ ends_pure (h e he)

end

namespace Upholds

variable (h : Upholds F among between)
include h

theorem upheld_update (current : Option StateId) : Upheld F between (Executor.update current : Session σ _) :=
  fun e he ↦ h.update e current (h.among_of_between e he)

theorem ends_visits (ids : List StateId) (reason : String) {e : Executor σ} (he : among e) :
    Ends F ((forIn ids PUnit.unit fun id _ ↦ do
      let _ ← visit id (Exec.terminateEarly reason)
      pure (ForInStep.yield PUnit.unit) : Session σ PUnit).run e) fun q ↦ among q.2 := by
  induction ids generalizing e with
  | nil => exact ends_pure he
  | cons id ids ih =>
    rw [List.forIn_cons]
    refine ends_bind (P := fun q ↦ q.1 = ForInStep.yield PUnit.unit ∧ among q.2) ?_ ?_
    · exact ends_bind (h.giveUp e id reason he) fun q hq ↦ ends_pure ⟨rfl, hq⟩
    · rintro ⟨_, e'⟩ ⟨rfl, he'⟩
      exact ih he'

theorem upheld_giveUp (ids : List StateId) (reason : String) :
    Upheld F between (Executor.giveUp ids reason : Session σ Unit) := fun e he ↦
  ends_run_bind (h.ends_visits ids reason (h.among_of_between e he)) fun _ e' he' ↦
    ends_run_bind (h.update e' none he') fun _ _ he'' ↦ ends_pure he''

theorem upheld_giveUpAll (reason : String) : Upheld F between (giveUpAll reason : Session σ Unit) :=
  upheld_get_bind fun _ ↦ h.upheld_giveUp _ reason

theorem upheld_abort (error : PathError) : Upheld F between (abort error : Session σ _) :=
  upheld_bind (h.upheld_giveUpAll _) fun _ ↦
    upheld_bind (upheld_modify fun e ↦ h.settings e _ _ _ _ _) fun _ ↦ upheld_pure _

theorem upheld_halt : Upheld F between (halt : Session σ _) :=
  upheld_bind (h.upheld_giveUpAll _) fun _ ↦ upheld_get_bind fun _ ↦ h.upheld_abort _

theorem upheld_checkMemory : Upheld F between (checkMemory : Session σ Unit) := by
  refine upheld_get_bind fun e ↦ ?_
  split
  · exact upheld_pure _
  · refine upheld_bind (upheld_modify fun e ↦ h.settings e _ _ _ _ _) fun _ ↦ ?_
    dsimp only
    split
    · exact upheld_pure _
    · exact upheld_bind (upheld_modify fun e ↦ h.settings e _ _ _ _ _) fun _ ↦ h.upheld_giveUp _ _

theorem upheld_stops (counter : Nat) : Upheld F between (stops counter : Session σ Bool) := by
  refine upheld_get_bind fun e ↦ ?_
  dsimp only
  split
  · exact upheld_pure _
  · exact upheld_bind (upheld_modify fun e ↦ h.settings e _ _ _ _ _) fun _ ↦ upheld_pure _

theorem upheld_stepState (id : StateId) : Upheld F between (stepState id : Session σ _) := fun e he ↦
  ends_run_bind (h.step e id he) fun o e' he' ↦ by
    cases o with
    | none => exact ends_throw h.faults.1
    | some result => exact ends_run_bind (h.update e' (some id) he') fun _ _ he'' ↦ ends_pure he''

theorem upheld_step : Upheld F between (Executor.step : Session σ _) := by
  refine upheld_bind (h.upheld_update none) fun _ ↦ upheld_get_bind fun e ↦ ?_
  dsimp only
  refine upheld_bind (upheld_modify fun e ↦ h.settings e _ _ _ _ _) fun _ ↦ ?_
  split
  · exact upheld_pure _
  · exact upheld_bind (h.upheld_stepState _) fun _ ↦ upheld_pure _

theorem upheld_followSeeds (fuel counter : Nat) (cursor : Option StateId) :
    Upheld F between (followSeeds fuel counter cursor : Session σ _) := by
  have hfinish : Upheld F between (followSeeds.finish : Session σ _) :=
    upheld_bind (upheld_modify h.unseeded) fun _ ↦ upheld_pure _
  induction fuel generalizing counter cursor with
  | zero => exact upheld_throw h.faults.2
  | succ fuel ih =>
    refine upheld_get_bind fun e ↦ ?_
    split
    · exact hfinish
    · refine upheld_bind (h.upheld_stops counter) fun stopped ↦ ?_
      split
      · exact hfinish
      · split
        · exact hfinish
        · refine upheld_bind (h.upheld_stepState _) fun r ↦ ?_
          cases r with
          | error error => exact upheld_pure _
          | ok report => exact ih _ _

omit h in
theorem upheld_end {x : Session σ PathError} (hx : Upheld F between x) :
    Upheld F between (do return .error (← x) : Session σ (Except PathError Unit)) :=
  upheld_bind hx fun _ ↦ upheld_pure _

theorem upheld_goOn {go : Session σ (Except PathError Unit)} (hgo : Upheld F between go) : Upheld F between (do
    match ← Executor.step with
    | .error error => return .error (← abort error)
    | .ok _ => go : Session σ (Except PathError Unit)) := by
  refine upheld_bind h.upheld_step fun r ↦ ?_
  cases r with
  | error error => exact upheld_end (h.upheld_abort error)
  | ok report => exact hgo

theorem upheld_explore (fuel counter : Nat) : Upheld F between (explore fuel counter : Session σ _) := by
  induction fuel generalizing counter with
  | zero => exact upheld_throw h.faults.2
  | succ fuel ih =>
    refine upheld_get_bind fun e ↦ ?_
    split
    · exact upheld_pure _
    · refine upheld_bind (h.upheld_stops counter) fun stopped ↦ ?_
      split
      · exact upheld_end h.upheld_halt
      · dsimp only
        split
        · exact upheld_bind h.upheld_checkMemory fun _ ↦ h.upheld_goOn (ih _)
        · exact h.upheld_goOn (ih _)

theorem upheld_run : Upheld F between (run : Session σ _) := by
  refine upheld_bind (h.upheld_update none) fun _ ↦ upheld_get_bind fun e ↦ ?_
  dsimp only
  split
  · exact h.upheld_explore _ _
  · refine upheld_bind (h.upheld_followSeeds _ _ _) fun r ↦ ?_
    split
    · exact upheld_end (h.upheld_abort _)
    · refine upheld_bind (h.upheld_stops 0) fun stopped ↦ ?_
      split
      · exact upheld_end h.upheld_halt
      · refine upheld_get_bind fun e ↦ ?_
        split
        · exact upheld_bind (h.upheld_giveUpAll _) fun _ ↦ upheld_pure _
        · exact h.upheld_explore _ _

theorem upheld_perform (c : Command) : Upheld F between (c.perform : Session σ Unit) := by
  cases c with
  | update current => exact upheld_bind (h.upheld_update current) fun _ ↦ upheld_pure _
  | step => exact upheld_bind h.upheld_step fun _ ↦ upheld_pure _
  | stepState id => exact upheld_bind (h.upheld_stepState id) fun _ ↦ upheld_pure _
  | poll counter => exact upheld_bind (h.upheld_stops counter) fun _ ↦ upheld_pure _
  | checkMemory => exact h.upheld_checkMemory
  | giveUp ids reason => exact h.upheld_giveUp ids reason
  | halt => exact upheld_bind h.upheld_halt fun _ ↦ upheld_pure _
  | run => exact upheld_bind h.upheld_run fun _ ↦ upheld_pure _

end Upholds

end Executor

end Symex
