import Symex.Proofs.Integrity.Runs
import Symex.Proofs.Lineage.Ledger

namespace Symex

open Checked

variable {σ α β : Type} {p : Program}

/-! ## Rounds -/

/-- The report says which states came up and which ended on the way from one machine to the other. -/
structure StepReport.Exact (report : StepReport) (e e' : Executor σ) : Prop where
  live_iff : ∀ id, e'.Live id ↔ (e.Live id ∨ id ∈ report.added) ∧ id ∉ report.removed
  fresh : ∀ id ∈ report.added, e.nextStateId ≤ id
  added_nodup : report.added.Nodup
  removed_nodup : report.removed.Nodup
  apart : ∀ id ∈ report.added, id ∉ report.removed

/-- Work on some states up to the update after it. -/
structure Round (σ : Type) where
  before : Executor σ
  /-- The states that ended. -/
  log : Departures
  report : StepReport
  after : Executor σ

def departures (rounds : List (Round σ)) : Departures := rounds.flatMap (·.log)

theorem departures_nil : departures ([] : List (Round σ)) = [] := rfl

theorem departures_append (rounds more : List (Round σ)) :
    departures (rounds ++ more) = departures rounds ++ departures more := List.flatMap_append

theorem departures_singleton (round : Round σ) : departures [round] = round.log := List.flatMap_singleton ..

namespace Executor

variable {e e' e'' : Executor σ} {log log' : Departures} {id : StateId} {current : Option StateId}
  {report : StepReport} {rounds more : List (Round σ)}

theorem Level.exact_update (he : e.Level log) (hadded : e.added = []) (hvisits : e.Visits log' e')
    (h : e'.Updated current report e'') : report.Exact e e'' := by
  have he' := hvisits.level he
  obtain ⟨hsearcher, -, came, hcame, hfresh⟩ := hvisits.grows he
  rw [hadded, List.nil_append] at hcame
  have hreported : ∀ i, i ∈ report.added ↔ i ∈ e'.added ∧ i ∉ e'.removed := by simp [h.report_eq]
  have hended : ∀ i, i ∈ report.removed ↔ i ∈ e'.removed ∧ i ∉ e'.added := by simp [h.report_eq]
  refine ⟨fun i ↦ ?_, fun i hi ↦ ?_, ?_, ?_, fun i hi hi' ↦ ((hreported i).1 hi).2 ((hended i).1 hi').1⟩
  · have hlive := he.queue i
    have hlive' := he'.queue i
    have hdisjoint : e.Live i → i ∉ e'.added := fun hi hmem ↦
      Nat.not_lt.2 (hfresh i (hcame ▸ hmem)) (he.live_lt i hi)
    rw [hadded, List.append_nil] at hlive
    rw [hsearcher, List.mem_append, hlive] at hlive'
    rw [h.live_iff, ← hlive', hreported, hended]
    tauto
  · exact hfresh i (hcame ▸ ((hreported i).1 hi).1)
  · rw [h.report_eq]
    exact (List.nodup_append.1 he'.queue_nodup).2.1.filter _
  · rw [h.report_eq]
    exact he'.removed_nodup.filter _

/-- Only the order in which states are picked, seeds that are given up, and what is kept for the user changed. -/
structure Idle (e e' : Executor σ) : Prop where
  states_eq : e'.states = e.states
  next_eq : e'.nextStateId = e.nextStateId
  added_eq : e'.added = e.added
  removed_eq : e'.removed = e.removed
  cases_eq : e'.cases = e.cases
  reported_eq : e'.reported = e.reported
  config_eq : e'.config = e.config
  queue_eq : e'.searcher.states = e.searcher.states
  program_eq : e'.program = e.program
  constants_eq : e'.constants = e.constants
  solver_eq : e'.solver = e.solver
  allocator_eq : e'.allocator = e.allocator
  seeds : ∀ (id : StateId) (seeds : List Seed), e'.seeds[id]? = some seeds → e.seeds[id]? = some seeds

theorem idle_with (e : Executor σ) (rng : Rng) (errors : List PathError) (watchdog : Watchdog)
    (atMemoryLimit : Bool) : e.Idle { e with rng, errors, watchdog, atMemoryLimit } :=
  ⟨rfl, rfl, rfl, rfl, rfl, rfl, rfl, rfl, rfl, rfl, rfl, rfl, fun _ _ ↦ id⟩

theorem Idle.live_iff (h : e.Idle e') (id : StateId) : e'.Live id ↔ e.Live id := by rw [Live, h.states_eq, Live]

theorem Idle.exact_report (h : e.Idle e') : StepReport.Exact ⟨current, [], []⟩ e e' where
  live_iff id := by simp [h.live_iff]
  fresh := List.forall_mem_nil _
  added_nodup := .nil
  removed_nodup := .nil
  apart := List.forall_mem_nil _

theorem Level.idle (he : e.Level log) (h : e.Idle e') : e'.Level log := by
  have hlive := h.live_iff
  refine ⟨fun id s hs ↦ he.named id s (h.states_eq ▸ hs), fun i hi ↦ h.next_eq ▸ he.live_lt i ((hlive i).1 hi), ?_,
    fun i ↦ ?_, h.removed_eq ▸ he.removed_nodup, fun i hi ↦ (hlive i).2 (he.removed_live i (h.removed_eq ▸ hi)),
    fun i hi ↦ ?_, fun i seeds hi ↦ h.next_eq ▸ he.fit i seeds (h.seeds i seeds hi), he.once, fun i ↦ ?_,
    h.cases_eq ▸ he.cases_eq, fun p hp ↦ ?_, fun p hp ↦ h.cases_eq ▸ he.reported p (h.reported_eq ▸ hp)⟩
  · rw [h.queue_eq, h.added_eq]
    exact he.queue_nodup
  · rw [h.queue_eq, h.added_eq, he.queue, hlive]
  · obtain ⟨seeds, hseeds⟩ := Option.ne_none_iff_exists'.1 hi
    exact (hlive i).2 (he.seeds_live i (Option.ne_none_iff_exists'.2 ⟨seeds, h.seeds i seeds hseeds⟩))
  · rw [he.ended, h.removed_eq, h.next_eq, hlive]
  · rw [h.config_eq, h.reported_eq]
    exact he.fits p hp

/-- From one machine to another there were these rounds. -/
inductive Journal : Executor σ → List (Round σ) → Executor σ → Prop
  | start (e : Executor σ) : Journal e [] e
  | idle {e e' e'' : Executor σ} {rounds : List (Round σ)} (h : Journal e rounds e') (hidle : e'.Idle e'') :
      Journal e rounds e''
  | round {e e' e₁ e₂ : Executor σ} {rounds : List (Round σ)} {log : Departures} {current : Option StateId}
      {report : StepReport} (h : Journal e rounds e') (hvisits : e'.Visits log e₁)
      (hupdate : (update current).run e₁ = .ok (report, e₂)) :
      Journal e (rounds ++ [⟨e', log, report, e₂⟩]) e₂

theorem Journal.trans (h : e.Journal rounds e') (h' : e'.Journal more e'') : e.Journal (rounds ++ more) e'' := by
  induction h' with
  | start => exact (List.append_nil rounds).symm ▸ h
  | idle _ hidle ih => exact .idle ih hidle
  | round _ hvisits hupdate ih => exact List.append_assoc .. ▸ .round ih hvisits hupdate

/-- The searcher holds the live states, and only these have seeds. -/
structure Agrees (e : Executor σ) : Prop where
  queue_nodup : e.searcher.states.Nodup
  queue : ∀ id, id ∈ e.searcher.states ↔ e.Live id
  seeds_live : ∀ id : StateId, e.seeds[id]? ≠ none → e.Live id

theorem Agrees.live_of_nextSeeded {cursor : Option StateId} (he : e.Agrees) (h : e.nextSeeded cursor = some id) :
    e.Live id := by
  have hmem : id ∈ e.seeds.keys := by
    obtain h | ⟨-, h⟩ := Option.or_eq_some_iff.1 h
    · obtain ⟨c, -, h⟩ := Option.bind_eq_some_iff.1 h
      exact List.mem_of_find?_eq_some h
    · exact List.mem_of_head? h
  rw [Std.TreeMap.mem_keys, Std.TreeMap.mem_iff_isSome_getElem?] at hmem
  exact he.seeds_live id (Option.isSome_iff_ne_none.1 hmem)

/-- The books of a machine in which the states of `log` have ended, and the searcher was told of all that. -/
structure Settled (e : Executor σ) (log : Departures) : Prop where
  level : e.Level log
  added_eq : e.added = []
  removed_eq : e.removed = []

theorem Settled.agrees (he : e.Settled log) : e.Agrees where
  queue_nodup := (List.nodup_append.1 he.level.queue_nodup).1
  queue id := by rw [← he.level.queue, he.added_eq, List.append_nil]
  seeds_live := he.level.seeds_live

theorem Settled.idle (he : e.Settled log) (h : e.Idle e') : e'.Settled log where
  level := he.level.idle h
  added_eq := h.added_eq.trans he.added_eq
  removed_eq := h.removed_eq.trans he.removed_eq

theorem Settled.round (he : e.Settled log) (hvisits : e.Visits log' e')
    (h : e'.Updated current report e'') : e''.Settled (log ++ log') where
  level := (hvisits.level he.level).update h
  added_eq := h.added_eq
  removed_eq := h.removed_eq

theorem Journal.settled (h : e.Journal rounds e') (he : e.Settled log) :
    e'.Settled (log ++ departures rounds) ∧
      ∀ round ∈ rounds, round.report.Exact round.before round.after ∧ round.after.Agrees := by
  induction h with
  | start => exact ⟨by rwa [departures_nil, List.append_nil], List.forall_mem_nil _⟩
  | idle _ hidle ih => exact ⟨ih.1.idle hidle, ih.2⟩
  | @round e' e₁ e₂ rounds log' current report _ hvisits hupdate ih =>
    have hupdated := (ends_update_all current e₁).of_eq hupdate
    have hsettled := ih.1.round hvisits hupdated
    refine ⟨?_, ?_⟩
    · rw [departures_append, departures_singleton, ← List.append_assoc]
      exact hsettled
    · rw [List.forall_mem_append, List.forall_mem_singleton]
      exact ⟨ih.2, ih.1.level.exact_update ih.1.added_eq hvisits hupdated, hsettled.agrees⟩

/-! ## Sessions -/

/-- All that is known of a machine between commands. -/
structure Ready (p : Program) (log : Departures) (e : Executor σ) : Prop where
  settled : e.Settled log
  sound : e.Sound ⟨.all, False⟩
  ordered : ∃ stalled, e.Ordered p stalled

/-- From a machine that is ready the work leads to such a one by some rounds, with a result as `Q` says, and
never steps a state that is not live. -/
def Logs (p : Program) (log : Departures) (e : Executor σ) (x : Session σ α) (Q : α → Executor σ → Prop) : Prop :=
  Ends (· ≠ .ended) (x.run e) fun q ↦
    ∃ rounds, e.Journal rounds q.2 ∧ q.2.Ready p (log ++ departures rounds) ∧ Q q.1 q.2

/-- The work can be done whenever a machine is ready. -/
def Logged (p : Program) (x : Session σ α) : Prop :=
  ∀ (e : Executor σ) (log : Departures), e.Ready p log → Logs p log e x fun _ _ ↦ True

section

variable {x : Session σ α} {k : α → Session σ β} {Q Q' : α → Executor σ → Prop} {R : β → Executor σ → Prop}

theorem Ready.logs_pure {a : α} (he : e.Ready p log) (h : Q a e) : Logs p log e (pure a : Session σ α) Q :=
  ends_pure ⟨[], .start e, (List.append_nil log).symm ▸ he, h⟩

theorem Logs.mono (hx : Logs p log e x Q) (h : ∀ a e', Q a e' → Q' a e') : Logs p log e x Q' :=
  Ends.mono hx fun q ⟨rounds, hjournal, he', hQ⟩ ↦ ⟨rounds, hjournal, he', h q.1 q.2 hQ⟩

theorem Logs.bind (hx : Logs p log e x Q)
    (hk : ∀ a e' log', e'.Ready p log' → Q a e' → Logs p log' e' (k a) R) : Logs p log e (x >>= k) R := by
  refine ends_run_bind hx ?_
  rintro a e' ⟨rounds, hjournal, he', hQ⟩
  refine Ends.mono (hk a e' _ he' hQ) ?_
  rintro q ⟨more, hjournal', he'', hR⟩
  refine ⟨rounds ++ more, hjournal.trans hjournal', ?_, hR⟩
  rwa [departures_append, ← List.append_assoc]

theorem logged_pure (a : α) : Logged p (pure a : Session σ α) := fun _ _ he ↦ he.logs_pure trivial

theorem logged_throw {fault : Fault} (h : fault ≠ .ended) : Logged p (throw fault : Session σ α) := fun _ _ _ ↦
  ends_throw h

theorem Logged.bind (hx : Logged p x) (hk : ∀ a, Logged p (k a)) : Logged p (x >>= k) := fun e log he ↦
  (hx e log he).bind fun a e' log' he' _ ↦ hk a e' log' he'

theorem Logs.get_bind {k : Executor σ → Session σ β} (hk : Logs p log e (k e) R) : Logs p log e (get >>= k) R := hk

theorem logged_get_bind {k : Executor σ → Session σ β} (hk : ∀ e, Logged p (k e)) : Logged p (get >>= k) :=
  fun e log he ↦ hk e e log he

theorem Ready.idle (he : e.Ready p log) (h : e.Idle e') : e'.Ready p log where
  settled := he.settled.idle h
  sound := ⟨h.solver_eq ▸ he.sound.exact, h.constants_eq ▸ he.sound.constants, h.states_eq ▸ he.sound.states⟩
  ordered := he.ordered.imp fun _ hordered ↦ hordered.unmoved
    ⟨h.states_eq, h.next_eq, h.removed_eq, h.program_eq, h.constants_eq, h.allocator_eq⟩

theorem Ready.logs_idle (he : e.Ready p log) (hx : Ends (· ≠ .ended) (x.run e) fun q ↦ e.Idle q.2) :
    Logs p log e x fun _ e' ↦ e.Idle e' :=
  hx.mono fun _ h ↦ ⟨[], .idle (.start e) h, (List.append_nil log).symm ▸ he.idle h, h⟩

theorem Ready.logs_modify {f : Executor σ → Executor σ} (he : e.Ready p log) (h : e.Idle (f e)) :
    Logs p log e (modify f : Session σ PUnit) fun _ e' ↦ e.Idle e' := he.logs_idle (ends_pure h)

theorem logged_modify_bind {f : Executor σ → Executor σ} {k : PUnit → Session σ β}
    (h : ∀ e : Executor σ, e.Idle (f e)) (hk : ∀ u, Logged p (k u)) : Logged p (modify f >>= k) :=
  fun e _ he ↦ (he.logs_modify (h e)).bind fun u e' log' he' _ ↦ hk u e' log' he'

theorem Ready.logs_round (he : e.Ready p log) (hkeeps : Keeps ⟨.all, False⟩ x)
    (hordered : Ends (· ≠ .ended) (x.run e) fun q ↦ ∃ left, q.2.Ordered p left)
    (hround : Ends (fun _ ↦ True) (x.run e) fun q ↦ ∃ log' e₁ current report, e.Visits log' e₁ ∧
      (update current).run e₁ = .ok (report, q.2) ∧ (report.Exact e q.2 → Q q.1 q.2)) : Logs p log e x Q := by
  refine (hordered.and ((hkeeps e he.sound).and hround)).mono ?_
  rintro q ⟨hordered', hsound, log', e₁, current, report, hvisits, hupdate, hQ⟩
  have hupdated := (ends_update_all current e₁).of_eq hupdate
  have hsettled := he.settled.round hvisits hupdated
  refine ⟨[⟨e, log', report, q.2⟩], .round (.start e) hvisits hupdate, ⟨?_, hsound, hordered'⟩,
    hQ (he.settled.level.exact_update he.settled.added_eq hvisits hupdated)⟩
  rwa [departures_singleton]

theorem ends_update_run {F : Fault → Prop} (current : Option StateId) (e : Executor σ) :
    Ends F ((update current).run e) fun q ↦ (update current).run e = .ok q := ends_of_eq rfl rfl

theorem logged_update (current : Option StateId) : Logged p (update current : Session σ _) := by
  intro e log he
  obtain ⟨stalled, hordered⟩ := he.ordered
  refine he.logs_round (keeps_update current) ((ordered_update current hordered).mono fun _ h ↦ ⟨stalled, h.1⟩) ?_
  exact (ends_update_run current e).mono fun q hq ↦ ⟨[], e, current, q.1, .done e, hq, fun _ ↦ trivial⟩

theorem Settled.run_update_none (he : e.Settled log) : (update none).run e = .ok (⟨none, [], []⟩, e) := by
  obtain ⟨-, hadded, hremoved⟩ := he
  cases e
  simp only at hadded hremoved
  subst hadded hremoved
  rfl

/-! ## States that are given up -/

theorem Level.ends_giveUp_visits (he : e.Level log) (ids : List StateId) (reason : String) :
    Ends (fun _ ↦ True) ((forIn ids PUnit.unit fun id _ ↦ do
        let _ ← Executor.visit id (Exec.terminateEarly reason)
        pure (ForInStep.yield PUnit.unit) : Session σ PUnit).run e) fun q ↦ ∃ log', e.Visits log' q.2 := by
  have hearly : (Exec.terminateEarly reason : Exec σ Unit).Stays ⟨.all, False⟩ False := Exec.stays_terminateWith _ _
  induction ids generalizing e log with
  | nil => exact ends_pure ⟨[], .done e⟩
  | cons id ids ih =>
    rw [List.forIn_cons]
    refine ends_bind (P := fun q ↦ q.1 = ForInStep.yield PUnit.unit ∧ ∃ log', e.Visits log' q.2) ?_ ?_
    · exact ends_bind (ends_visit_books (.giveUp reason) he.fit fun _ _ ↦ (hearly _).mono fun _ _ h ↦ h.1.booked)
        fun _ h ↦ ends_pure ⟨rfl, h⟩
    · rintro ⟨_, e'⟩ ⟨rfl, log', hvisits⟩
      refine (ih (hvisits.level he)).mono ?_
      rintro q ⟨log'', hvisits'⟩
      exact ⟨log' ++ log'', hvisits.trans hvisits'⟩

theorem logged_giveUp (ids : List StateId) (reason : String) : Logged p (giveUp ids reason : Session σ Unit) := by
  intro e log he
  obtain ⟨stalled, hordered⟩ := he.ordered
  refine he.logs_round (keeps_giveUp ids reason) (((ordered_giveUp ids reason hordered).weaken
    fun _ h ↦ h.2.2).mono fun _ h ↦ ⟨stalled, h.1⟩) ?_
  refine ends_run_bind (he.settled.level.ends_giveUp_visits ids reason) ?_
  rintro _ e₁ ⟨log', hvisits⟩
  exact ends_run_bind (ends_update_run _ _) fun report _ hupdate ↦
    ends_pure ⟨log', e₁, none, report, hvisits, hupdate, fun _ ↦ trivial⟩

theorem logged_giveUpAll (reason : String) : Logged p (giveUpAll reason : Session σ Unit) :=
  logged_get_bind fun _ ↦ logged_giveUp _ reason

theorem logged_abort (error : PathError) : Logged p (abort error : Session σ _) :=
  (logged_giveUpAll _).bind fun _ ↦ logged_modify_bind (fun e ↦ e.idle_with _ _ _ _) fun _ ↦ logged_pure _

theorem logged_halt : Logged p (halt : Session σ _) :=
  (logged_giveUpAll _).bind fun _ ↦ logged_get_bind fun _ ↦ logged_abort _

theorem logged_checkMemory : Logged p (checkMemory : Session σ Unit) := by
  refine logged_get_bind fun e ↦ ?_
  split
  · exact logged_pure _
  · refine logged_modify_bind (fun e ↦ e.idle_with _ _ _ _) fun _ ↦ ?_
    dsimp only
    split
    · exact logged_pure _
    · exact logged_modify_bind (fun e ↦ e.idle_with _ _ _ _) fun _ ↦ logged_giveUp _ _

theorem Ready.logs_stops (he : e.Ready p log) (counter : Nat) :
    Logs p log e (stops counter : Session σ Bool) fun _ e' ↦ e.Idle e' := by
  refine he.logs_idle ?_
  unfold stops
  rw [StateT.run_bind, StateT.run_get, pure_bind]
  dsimp only
  split
  · exact ends_pure (e.idle_with _ _ _ _)
  · exact ends_pure (e.idle_with _ _ _ _)

theorem logged_stops (counter : Nat) : Logged p (stops counter : Session σ Bool) := fun _ _ he ↦
  (he.logs_stops counter).mono fun _ _ _ ↦ trivial

/-! ## Steps -/

variable (hp : p.isValid)
include hp

theorem Ready.logs_stepState (he : e.Ready p log) (hlive : e.Live id) :
    Logs p log e (stepState id : Session σ _) fun r e' ↦
      ∃ report : StepReport, report.Exact e e' ∧ ∀ q, r = .ok q → q = report := by
  obtain ⟨stalled, hordered⟩ := he.ordered
  have hr := he.settled.removed_eq
  have hlive' : Ends (· ≠ .ended) ((visit id Exec.step).run e) fun q ↦ q.1 ≠ none :=
    ends_run_visit (fun hnone ↦ (hlive hnone).elim) fun s hs ↦
      ((hordered.ends_step hp hr hs (fun _ ↦ trivial : id ∈ stalled → True)).weaken fun _ h ↦ h.2).mono
        fun _ _ _ ↦ Option.some_ne_none _
  have hbooks : Ends (fun _ ↦ True) ((visit id Exec.step).run e) fun q ↦ ∃ log', e.Visits log' q.2 :=
    ends_visit_books .step he.settled.level.fit fun s hs ↦ (Exec.ends_step_makes
      ⟨he.sound.erase id, he.sound.states id s hs⟩ (he.settled.level.tidy.focusOn hs) (fun _ ↦ trivial : _ → True)
      (by simp [Focus.Going, focusOn, hr]) fun h ↦ (h trivial).elim).mono fun _ _ h ↦ h.booked
  have hround : Ends (· ≠ .ended) ((stepState id).run e) fun q ↦ ∃ log' e₁ current report, e.Visits log' e₁ ∧
      (update current).run e₁ = .ok (report, q.2) ∧ (report.Exact e q.2 →
        ∃ report : StepReport, report.Exact e q.2 ∧ ∀ q', q.1 = .ok q' → q' = report) := by
    refine ends_run_bind (hlive'.and hbooks) ?_
    rintro o e₁ ⟨hne, log', hvisits⟩
    cases o with
    | none => exact (hne rfl).elim
    | some result =>
      refine ends_run_bind (ends_update_run _ _) fun report e₂ hupdate ↦ ends_pure ?_
      refine ⟨log', e₁, some id, report, hvisits, hupdate, fun hexact ↦ ⟨report, hexact, fun q hq ↦ ?_⟩⟩
      cases result with
      | error error => cases hq
      | ok _ => exact (Except.ok.inj hq).symm
  have hgoes := goes_stepState (σ := σ) hp id (fun _ ↦ trivial : id ∈ stalled → True) e hordered hr
  refine he.logs_round (keeps_stepState id) ((hround.and hgoes).mono ?_) (hround.weaken fun _ _ ↦ trivial)
  rintro _ ⟨-, left, -, h, -⟩
  exact ⟨left, h⟩

theorem Ready.logs_step (he : e.Ready p log) : Logs p log e (step : Session σ _) fun r e' ↦
    ∃ report : StepReport, report.Exact e e' ∧ ∀ q, r = .ok (some q) → q = report := by
  unfold step Logs
  rw [StateT.run_bind, he.settled.run_update_none, ok_bind, StateT.run_bind, StateT.run_get, pure_bind]
  dsimp only
  have hstates := e.searcher.states_select
  have hpicked : ∀ id, e.searcher.select.1 = some id → e.Live id := fun id hid ↦
    (he.settled.agrees.queue id).1 (Searcher.mem_of_select hid)
  generalize e.searcher.select = choice at hstates hpicked ⊢
  obtain ⟨next, searcher⟩ := choice
  have hidle : e.Idle { e with searcher } :=
    ⟨rfl, rfl, rfl, rfl, rfl, rfl, rfl, hstates, rfl, rfl, rfl, rfl, fun _ _ ↦ id⟩
  cases next with
  | none => exact ends_pure ⟨[], .idle (.start e) hidle, (List.append_nil log).symm ▸ he.idle hidle,
      ⟨none, [], []⟩, hidle.exact_report, nofun⟩
  | some id =>
    refine ends_run_bind (P := fun q ↦ q.2 = { e with searcher }) (ends_pure rfl) ?_
    rintro _ _ rfl
    refine ends_run_bind ((he.idle hidle).logs_stepState hp (hpicked id rfl)) ?_
    rintro r e' ⟨rounds, hjournal, he', report, hexact, hr⟩
    refine ends_pure ⟨rounds, (Journal.idle (.start e) hidle).trans hjournal, he', report,
      ⟨hexact.live_iff, hexact.fresh, hexact.added_nodup, hexact.removed_nodup, hexact.apart⟩, fun q hq ↦ ?_⟩
    cases r with
    | error error => cases hq
    | ok q' => exact Option.some.inj (Except.ok.inj hq) ▸ hr q' rfl

theorem logged_step : Logged p (step : Session σ _) := fun _ _ he ↦
  (he.logs_step hp).mono fun _ _ _ ↦ trivial

theorem logged_step_bind {α : Type} {k : Except PathError (Option StepReport) → Session σ α}
    (herror : ∀ error, Logged p (k (.error error))) (hok : ∀ report, Logged p (k (.ok report))) :
    Logged p (step >>= k) := by
  refine (logged_step hp).bind fun r ↦ ?_
  cases r with
  | error error => exact herror error
  | ok report => exact hok report

/-! ## Loops -/

theorem logged_followSeeds (fuel counter : Nat) (cursor : Option StateId) :
    Logged p (followSeeds fuel counter cursor : Session σ _) := by
  have hfinish : Logged p (followSeeds.finish : Session σ _) :=
    logged_modify_bind (fun e ↦ ⟨rfl, rfl, rfl, rfl, rfl, rfl, rfl, rfl, rfl, rfl, rfl, rfl, by simp⟩) fun _ ↦
      logged_pure _
  induction fuel generalizing counter cursor with
  | zero => exact logged_throw (by decide)
  | succ fuel ih =>
    intro e log he
    refine Logs.get_bind ?_
    split
    · exact hfinish e log he
    · rename_i id hnext
      refine (he.logs_stops counter).bind fun stopped e₁ log₁ he₁ hidle ↦ ?_
      have hlive : e₁.Live id := (hidle.live_iff id).2 (he.settled.agrees.live_of_nextSeeded hnext)
      split
      · exact hfinish e₁ log₁ he₁
      · split
        · exact hfinish e₁ log₁ he₁
        · refine (he₁.logs_stepState hp hlive).bind fun r e₂ log₂ he₂ _ ↦ ?_
          cases r with
          | error error => exact he₂.logs_pure trivial
          | ok report => exact ih _ _ e₂ log₂ he₂

theorem logged_explore (fuel counter : Nat) : Logged p (explore fuel counter : Session σ _) := by
  induction fuel generalizing counter with
  | zero => exact logged_throw (by decide)
  | succ fuel ih =>
    have hgiveUp (error : PathError) :
        Logged p (do return .error (← abort error) : Session σ (Except PathError Unit)) :=
      (logged_abort error).bind fun _ ↦ logged_pure _
    refine logged_get_bind fun e ↦ ?_
    split
    · exact logged_pure _
    · refine (logged_stops counter).bind fun stopped ↦ ?_
      split
      · exact logged_halt.bind fun _ ↦ logged_pure _
      · dsimp only
        split
        · exact logged_checkMemory.bind fun _ ↦ logged_step_bind hp hgiveUp fun _ ↦ ih _
        · exact logged_step_bind hp hgiveUp fun _ ↦ ih _

theorem logged_run : Logged p (run : Session σ _) := by
  refine (logged_update none).bind fun _ ↦ logged_get_bind fun e ↦ ?_
  dsimp only
  split
  · exact logged_explore hp _ _
  · refine (logged_followSeeds hp _ _ _).bind fun r ↦ ?_
    split
    · exact (logged_abort _).bind fun _ ↦ logged_pure _
    · refine (logged_stops 0).bind fun stopped ↦ ?_
      split
      · exact logged_halt.bind fun _ ↦ logged_pure _
      · refine logged_get_bind fun e ↦ ?_
        split
        · exact (logged_giveUpAll _).bind fun _ ↦ logged_pure _
        · exact logged_explore hp _ _

theorem Ready.logs_outcome (he : e.Ready p log) (c : Command) (hc : ∀ id, c = .stepState id → e.Live id) :
    Logs p log e (c.outcome : Session σ _) fun _ _ ↦ True := by
  have hunit {x : Session σ Unit} (hx : Logged p x) :
      Logs p log e (do x; return .ok () : Session σ (Except PathError Unit)) fun _ _ ↦ True :=
    hx.bind (fun _ ↦ logged_pure _) e log he
  have hend {α : Type} {x : Session σ α} (hx : Logged p x) :
      Logs p log e (do (do let _ ← x); return .ok () : Session σ (Except PathError Unit)) fun _ _ ↦ True :=
    hunit (hx.bind fun _ ↦ logged_pure _)
  cases c with
  | update current => exact hend (logged_update current)
  | step => exact (he.logs_step hp).bind fun _ _ _ he' _ ↦ he'.logs_pure trivial
  | stepState id => exact (he.logs_stepState hp (hc id rfl)).bind fun _ _ _ he' _ ↦ he'.logs_pure trivial
  | poll counter => exact hend (logged_stops counter)
  | checkMemory => exact hunit logged_checkMemory
  | giveUp ids reason => exact hunit (logged_giveUp ids reason)
  | halt => exact hend logged_halt
  | run => exact logged_run hp e log he

end

/-! ## The start -/

/-- A machine that was set up for the program and not run yet: with whatever configuration, solver, seeds, host
and records to replay, with arguments that are well-formed, and with a searcher that knows of no states. -/
inductive Equipped (p : Program) : Executor σ → Prop
  | start {config : Config} {solver : Solver σ} {watchdog : Watchdog} {e : Executor σ}
      (he : start p config solver watchdog = .ok e) : Equipped p e
  | arguments {e e' : Executor σ} {arguments : List Expr} (h : Equipped p e)
      (harguments : ∀ a ∈ arguments, a.WellFormed) (he' : e.withArguments arguments = .ok e') : Equipped p e'
  | seeds {e : Executor σ} (h : Equipped p e) (seeds : List (List TestInput)) : Equipped p (e.withSeeds seeds)
  | settings {e : Executor σ} (h : Equipped p e) (searcher : Searcher) (hsearcher : searcher.states = [])
      (host : Dispatcher) (nans : Nat → Ieee.Format → Bool × Nat) (replayPath : Option (List Bool))
      (replayInputs : Option (List TestInput)) :
      Equipped p { e with searcher, host, nans, replayPath, replayInputs }

theorem Equipped.readied (h : Equipped p e) : Readied p e := by
  induction h with
  | start he => exact .start he
  | arguments _ _ he' ih => exact .arguments ih he'
  | seeds _ seeds ih => exact .seeds ih seeds
  | settings _ searcher _ host nans path inputs ih => exact .settings ih searcher host nans path inputs

theorem Equipped.sound (h : Equipped p e) : e.Sound ⟨.all, False⟩ := by
  induction h with
  | start he => exact (safe_start _ _ _ False.elim).of_eq he
  | arguments _ harguments he' ih => exact (safe_withArguments ih harguments).of_eq he'
  | seeds _ seeds ih => exact ih.withSeeds seeds
  | settings _ _ _ _ _ _ _ ih => exact ⟨ih.exact, ih.constants, ih.states⟩

/-- There is one state, of which the searcher was not told yet, and nothing was written down. -/
structure Unopened (e : Executor σ) : Prop where
  named : e.Named
  live_iff : ∀ id, e.Live id ↔ id = 0
  next_eq : e.nextStateId = 1
  added_eq : e.added = [0]
  removed_eq : e.removed = []
  cases_eq : e.cases = #[]
  reported_eq : e.reported = []
  queue_eq : e.searcher.states = []
  seeds : ∀ (id : StateId) (seeds : List Seed), e.seeds[id]? = some seeds →
    id = 0 ∧ ∀ seed ∈ seeds, seed.assignment.free

theorem live_insert_zero {states : Std.TreeMap StateId State} {root : State} (hroot : root.id = 0)
    (hstates : ∀ (id : StateId) (s : State), states[id]? = some s → id = 0) :
    (∀ (id : StateId) (s : State), (states.insert 0 root)[id]? = some s → s.id = id) ∧
      ∀ id : StateId, (states.insert 0 root)[id]? ≠ none ↔ id = 0 := by
  refine ⟨fun id s hs ↦ ?_, fun id ↦ ?_⟩
  · rw [Focus.getElem?_insert_state] at hs
    split at hs
    · exact Option.some.inj hs ▸ hroot.trans ‹_›
    · exact absurd (hstates id s hs).symm ‹_›
  · rw [Focus.getElem?_insert_state]
    split
    · simp [← ‹0 = id›]
    · rename_i hne
      refine ⟨fun h ↦ ?_, fun h ↦ absurd h.symm hne⟩
      obtain ⟨s, hs⟩ := Option.ne_none_iff_exists'.1 h
      exact hstates id s hs

theorem Equipped.unopened (h : Equipped p e) : e.Unopened := by
  induction h with
  | @start config solver watchdog e he =>
    refine Ends.of_eq (F := fun _ ↦ True) (x := Executor.start p config solver watchdog) ?_ he
    refine ends_bind (ends_any _) fun entry _ ↦ ends_bind (ends_any _) fun q _ ↦
      ends_bind (ends_any _) fun constants _ ↦ ends_bind (alike_writeArguments _ _) fun root hroot ↦ ?_
    obtain ⟨hnamed, hlive⟩ := live_insert_zero hroot.id_eq
      fun id s (hs : (∅ : Std.TreeMap StateId State)[id]? = some s) ↦ by simp at hs
    refine ends_pure ⟨?_, ?_, rfl, rfl, rfl, rfl, rfl, rfl, by simp⟩
    · simpa [Named, Std.TreeMap.ofList_singleton] using hnamed
    · simpa [Live, Std.TreeMap.ofList_singleton] using hlive
  | @arguments e e' arguments _ _ he' ih =>
    refine Ends.of_eq (F := fun _ ↦ True) (x := e.withArguments arguments) ?_ he'
    refine ends_bind (ends_any _) fun entry _ ↦ ?_
    split
    · exact ends_pure ih
    · rename_i root hroot
      refine ends_bind (alike_writeArguments _ root) fun root' hroot' ↦ ?_
      obtain ⟨hnamed, hlive⟩ := live_insert_zero (hroot'.id_eq.trans (ih.named 0 root hroot)) fun id s hs ↦
        (ih.live_iff id).1 (Option.ne_none_iff_exists'.2 ⟨s, hs⟩)
      exact ends_pure ⟨hnamed, hlive, ih.next_eq, ih.added_eq, ih.removed_eq, ih.cases_eq, ih.reported_eq,
        ih.queue_eq, ih.seeds⟩
  | @seeds e _ seeds ih =>
    unfold withSeeds
    split
    · exact ih
    · refine { ih with seeds := fun id seeds' hid ↦ ?_ }
      rw [Focus.getElem?_insert_state] at hid
      split at hid
      · obtain rfl := Option.some.inj hid
        exact ⟨Eq.symm ‹_›, by simp⟩
      · exact ih.seeds id seeds' hid
  | settings _ _ hsearcher _ _ _ _ ih => exact { ih with queue_eq := hsearcher }

theorem Unopened.level (h : e.Unopened) : e.Level [] where
  named := h.named
  live_lt id hid := by
    rw [(h.live_iff id).1 hid, h.next_eq]
    exact Nat.zero_lt_one
  queue_nodup := by
    rw [h.queue_eq, h.added_eq]
    exact List.nodup_singleton _
  queue id := by rw [h.queue_eq, h.added_eq, List.nil_append, List.mem_singleton, h.live_iff]
  removed_nodup := h.removed_eq ▸ .nil
  removed_live := h.removed_eq ▸ List.forall_mem_nil _
  seeds_live id hid := by
    obtain ⟨seeds, hseeds⟩ := Option.ne_none_iff_exists'.1 hid
    exact (h.live_iff id).2 (h.seeds id seeds hseeds).1
  fit id seeds hseeds := by
    obtain ⟨rfl, hfree⟩ := h.seeds id seeds hseeds
    exact ⟨h.next_eq ▸ Nat.zero_lt_one, hfree⟩
  once := .nil
  ended id := by
    rw [h.removed_eq, h.next_eq, h.live_iff]
    simp [Departures.ids]
  cases_eq := by
    rw [h.cases_eq]
    rfl
  fits := List.forall_mem_nil _
  reported := h.reported_eq ▸ List.forall_mem_nil _

theorem Equipped.ready (hp : p.isValid) (h : Equipped p e) (hopen : (update none).run e = .ok (report, e')) :
    e'.Ready p [] := by
  have hroomy := h.readied.roomy hp
  have hupdated := (ends_update_all none e).of_eq hopen
  exact ⟨⟨h.unopened.level.update hupdated, hupdated.added_eq, hupdated.removed_eq⟩,
    (keeps_update none e h.sound).of_eq hopen,
    [], ((ordered_update (F := fun _ ↦ True) none hroomy.ordered).of_eq hopen).1⟩

/-! ## All runs -/

/-- Any number of commands after the update with which a run of the program begins. -/
inductive Course (p : Program) (e₀ : Executor σ) : Executor σ → Prop
  | opened {e : Executor σ} {report : StepReport} (h : Equipped p e)
      (hopen : (update none).run e = .ok (report, e₀)) : Course p e₀ e₀
  | perform {e e' : Executor σ} {r : Except PathError Unit} (h : Course p e₀ e) (c : Command)
      (hc : ∀ id, c = .stepState id → e.Live id) (he' : c.outcome.run e = .ok (r, e')) : Course p e₀ e'

/-- Every state that ended did so once, and has the one test case that is due, unless it was merged into another
one or its error was reported before. There are no other test cases. -/
structure Accounts (e : Executor σ) (log : Departures) : Prop where
  live_lt : ∀ id, e.Live id → id < e.nextStateId
  once : log.ids.Nodup
  ended : ∀ id, id ∈ log.ids ↔ id < e.nextStateId ∧ ¬e.Live id
  cases_eq : e.cases.toList = log.cases
  single : ∀ q ∈ log, e.cases.toList.filter (·.state = q.1) = q.2.case?.toList
  fits : ∀ q ∈ log, q.2.Fits e.config e.reported q.1
  reported : ∀ q ∈ e.reported, ∃ c ∈ e.cases, ∃ kind, c.termination = .error kind q.2

theorem Settled.accounts (he : e.Settled log) : e.Accounts log where
  live_lt := he.level.live_lt
  once := he.level.once
  ended id := by simp [he.level.ended, he.removed_eq]
  cases_eq := he.level.cases_eq
  single q hq := by
    rw [he.level.cases_eq]
    exact Departures.cases_of_mem he.level.fits he.level.once hq
  fits := he.level.fits
  reported := he.level.reported

theorem Course.ready (hp : p.isValid) {e₀ : Executor σ} (h : Course p e₀ e) :
    e₀.Settled [] ∧ ∃ rounds, e₀.Journal rounds e ∧ e.Ready p (departures rounds) := by
  induction h with
  | opened h hopen =>
    have hready := h.ready hp hopen
    exact ⟨hready.settled, [], .start _, hready⟩
  | perform _ c hc he' ih =>
    obtain ⟨hsettled, rounds, hjournal, hready⟩ := ih
    obtain ⟨more, hjournal', hready', -⟩ := (hready.logs_outcome hp c hc).of_eq he'
    exact ⟨hsettled, rounds ++ more, hjournal.trans hjournal', departures_append rounds more ▸ hready'⟩

/-- Whatever solver, searcher and configuration there are, a run is made of rounds of which each has an exact
report, steps too that end the run. After each of them the searcher holds the live states, and only these have
seeds, so a state that is not live is never stepped. -/
theorem books_of_course (hp : p.isValid) {e₀ : Executor σ} (h : Course p e₀ e) :
    (∃ rounds, e₀.Journal rounds e ∧
      (∀ round ∈ rounds, round.report.Exact round.before round.after ∧ round.after.Agrees) ∧
        e.Accounts (departures rounds)) ∧
      e.Agrees ∧
      (∀ r e', step.run e = .ok (r, e') →
        ∃ report : StepReport, report.Exact e e' ∧ ∀ q, r = .ok (some q) → q = report) ∧
      ∀ c : Command, (∀ id, c = .stepState id → e.Live id) → c.outcome.run e ≠ .error .ended := by
  obtain ⟨hsettled, rounds, hjournal, hready⟩ := h.ready hp
  refine ⟨⟨rounds, hjournal, (hjournal.settled hsettled).2, hready.settled.accounts⟩, hready.settled.agrees,
    fun r e' he' ↦ ?_, fun c hc ↦ (hready.logs_outcome hp c hc).ne_error⟩
  obtain ⟨_, -, -, hreport⟩ := (hready.logs_step hp).of_eq he'
  exact hreport

/-- Both states of such a program end, with a test case each. -/
theorem books_of_course_twofold : ∃ (e₀ e : Executor Unit) (rounds : List (Round Unit)), Course twofold e₀ e ∧
    (e.states.size, e.cases.size) = (0, 2) ∧ e₀.Journal rounds e ∧
      (∀ round ∈ rounds, round.report.Exact round.before round.after ∧ round.after.Agrees) ∧
        e.Accounts (departures rounds) := by
  have hrun : (do
      let e ← start twofold {} { backend := .silent, state := () } .never
      let q ← (update none).run e
      let q ← Command.step.outcome.run q.2
      let q ← Command.run.outcome.run q.2
      return (q.2.states.size, q.2.cases.size) : Checked (Nat × Nat)) = .ok (0, 2) := by
    rw [Command.outcome]
    unfold step stepState Exec.step Exec.instruction Exec.intrinsic Exec.forkTwice Exec.branch
    simp only [Exec.arms_pair]
    decide +kernel
  obtain ⟨e, hstart, hrun⟩ := bind_eq_ok.1 hrun
  obtain ⟨⟨report, e₀⟩, hopen, hrun⟩ := bind_eq_ok.1 hrun
  obtain ⟨⟨r, e₁⟩, hstep, hrun⟩ := bind_eq_ok.1 hrun
  obtain ⟨⟨r', e'⟩, hcommand, hsizes⟩ := bind_eq_ok.1 hrun
  have hcourse : Course twofold e₀ e' :=
    .perform (.perform (.opened (.start hstart) hopen) .step (by simp) hstep) .run (by simp) hcommand
  obtain ⟨⟨rounds, hjournal, hrounds, haccounts⟩, -⟩ := books_of_course (by decide +kernel) hcourse
  exact ⟨e₀, e', rounds, hcourse, pure_eq_ok.1 hsizes, hjournal, hrounds, haccounts⟩

end Executor

end Symex
