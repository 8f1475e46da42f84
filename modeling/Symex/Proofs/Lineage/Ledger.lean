import Symex.Proofs.Lineage.Runs

namespace Symex

open Checked

variable {σ α β : Type}

/-! ## Departures -/

namespace Departures

variable {log : Departures} {config : Config} {reported : List (Location × String)}

theorem filter_cases (hfits : ∀ p ∈ log, p.2.Fits config reported p.1) (id : StateId) :
    log.cases.filter (·.state = id) = cases (log.filter (·.1 = id)) := by
  induction log with
  | nil => rfl
  | cons p log ih =>
    rw [List.forall_mem_cons] at hfits
    obtain ⟨id', d⟩ := p
    have hcons : ∀ l : Departures, cases ((id', d) :: l) = d.case?.toList ++ cases l := by
      intro l
      cases d <;> rfl
    have htail := ih hfits.2
    rw [hcons, List.filter_append, htail]
    by_cases heq : id' = id
    · rw [List.filter_cons_of_pos (p := fun q : StateId × Departure ↦ decide (q.1 = id)) (by simpa using heq), hcons]
      congr 1
      cases d with
      | reported testCase =>
        have hstate : testCase.state = id := hfits.1.trans heq
        simp [Departure.case?, hstate]
      | absorbed _ => rfl
      | repeated _ => rfl
    · rw [List.filter_cons_of_neg (p := fun q : StateId × Departure ↦ decide (q.1 = id)) (by simpa using heq)]
      cases d with
      | reported testCase =>
        have hstate : testCase.state ≠ id := fun h ↦ heq (hfits.1.symm.trans h)
        simp [Departure.case?, hstate]
      | absorbed _ => rfl
      | repeated _ => rfl

theorem cases_of_mem (hfits : ∀ p ∈ log, p.2.Fits config reported p.1) (hnodup : log.ids.Nodup)
    {p : StateId × Departure} (hp : p ∈ log) : log.cases.filter (·.state = p.1) = p.2.case?.toList := by
  rw [filter_cases hfits]
  have honly : log.filter (·.1 = p.1) = [p] := by
    induction log with
    | nil => cases hp
    | cons q log ih =>
      rw [List.forall_mem_cons] at hfits
      obtain ⟨hnew, hnodup⟩ := List.nodup_cons.1 hnodup
      obtain rfl | hp := List.mem_cons.1 hp
      · rw [List.filter_cons_of_pos (by simp), List.filter_eq_nil_iff.2]
        intro q hq
        simp only [decide_eq_true_eq]
        exact fun heq ↦ hnew (List.mem_map.2 ⟨q, hq, heq⟩)
      · rw [List.filter_cons_of_neg, ih hfits.2 hnodup hp]
        simp only [decide_eq_true_eq]
        exact fun heq ↦ hnew (List.mem_map.2 ⟨p, hp, heq.symm⟩)
  rw [honly]
  obtain ⟨_, d⟩ := p
  cases d <;> rfl

end Departures

/-! ## Searchers -/

namespace Searcher

theorem perm_requeue (states : List StateId) (id : StateId) : (requeue states id).Perm states := by
  unfold requeue
  split
  · rename_i h
    exact List.perm_append_comm.trans (List.perm_cons_erase (by simpa using h)).symm
  · exact .refl _

theorem perm_update (s : Searcher) (current : Option StateId) (added removed : List StateId) :
    (s.update current added removed).states.Perm ((s.states ++ added).filter (!removed.contains ·)) := by
  refine List.Perm.filter _ (List.Perm.append_right _ ?_)
  split
  · split
    · exact .refl _
    · exact perm_requeue _ _
  · exact .refl _

theorem states_select (s : Searcher) : s.select.2.states = s.states := by
  fun_cases select s <;> rfl

theorem mem_of_select {s : Searcher} {id : StateId} (h : s.select.1 = some id) : id ∈ s.states := by
  revert h
  fun_cases select s <;> intro h
  · exact List.mem_of_getLast? h
  · exact List.mem_of_head? h
  · cases h
  · exact List.mem_of_getElem? h

end Searcher

namespace Executor

variable {e e' e'' : Executor σ} {log log' : Departures} {id : StateId} {current : Option StateId}
  {report : StepReport}

/-! ## The books -/

def Live (e : Executor σ) (id : StateId) : Prop := e.states[id]? ≠ none

/-- The books of a machine in which the states of `log` have ended. Between steps the searcher was told of
all live states but those of `added`, and those of `removed` are gone at the next update. -/
structure Level (e : Executor σ) (log : Departures) : Prop where
  named : e.Named
  live_lt : ∀ id, e.Live id → id < e.nextStateId
  queue_nodup : (e.searcher.states ++ e.added).Nodup
  queue : ∀ id, id ∈ e.searcher.states ++ e.added ↔ e.Live id
  removed_nodup : e.removed.Nodup
  removed_live : ∀ id ∈ e.removed, e.Live id
  seeds_live : ∀ id : StateId, e.seeds[id]? ≠ none → e.Live id
  fit : e.SeedsFit
  once : log.ids.Nodup
  ended : ∀ id, id ∈ log.ids ↔ id ∈ e.removed ∨ id < e.nextStateId ∧ ¬e.Live id
  cases_eq : e.cases.toList = log.cases
  fits : ∀ p ∈ log, p.2.Fits e.config e.reported p.1
  reported : ∀ p ∈ e.reported, ∃ c ∈ e.cases, ∃ kind, c.termination = .error kind p.2

theorem Level.tidy (he : e.Level log) : e.Tidy where
  named id s hs := ⟨he.named id s hs, he.live_lt id (Option.ne_none_iff_exists'.2 ⟨s, hs⟩)⟩
  removed_lt id hid := he.live_lt id (he.removed_live id hid)

theorem has_iff_live {s : State} (hs : e.Live s.id) (id : StateId) : Focus.Has ⟨e, s⟩ id ↔ e.Live id := by
  refine ⟨?_, .inr⟩
  rintro (rfl | h)
  · exact hs
  · exact h

theorem Level.visit {s : State} {g : Focus σ} (he : e.Level log) (hs : e.states[id]? = some s)
    (h : (e.focusOn id s).Books log' g) :
    Level { g.executor with states := g.executor.states.insert id g.state } (log ++ log') := by
  obtain ⟨came, hwrites⟩ := h.writes
  have hname := he.named id s hs
  have hw := Focus.Writes.visit (f := ⟨e, s⟩) hs hname hwrites
  have hfits := h.fits
  have hconfig : g.executor.config = e.config := hw.config_eq
  generalize he' : { g.executor with states := g.executor.states.insert id g.state } = e' at hw ⊢
  have hreported : e'.reported = g.executor.reported := by rw [← he']
  have hlive : ∀ i, Focus.Has ⟨e, s⟩ i ↔ e.Live i := has_iff_live (by rw [hname, Live, hs]; exact nofun)
  have hlive' : ∀ i, e'.Live i ↔ e.Live i ∨ i ∈ came := by
    have hlive₁ : ∀ i, Focus.Has ⟨e', s⟩ i ↔ e'.Live i := has_iff_live (by rw [hname, Live, ← he']; simp)
    intro i
    rw [← hlive₁, hw.held, hlive]
  have hcame : ∀ i, i ∈ came ↔ e.nextStateId ≤ i ∧ i < e'.nextStateId := by
    intro i
    rw [hw.named_eq, List.mem_range'_1, hw.next_eq]
  have hgone : ∀ i ∈ log'.ids, i ∉ e.removed ∧ e'.Live i := fun i hi ↦
    (hw.gone i hi).imp_right fun h ↦ (hlive' i).2 (((hw.held i).1 h).imp_left (hlive i).1)
  have hold : ∀ i, e.Live i → i ∉ came := fun i hi hmem ↦
    Nat.not_lt.2 ((hcame i).1 hmem).1 (he.live_lt i hi)
  refine ⟨hw.names he.named, fun i hi ↦ ?_, ?_, fun i ↦ ?_, ?_, fun i hi ↦ ?_, fun i hi ↦ ?_, hw.fit he.fit, ?_,
    fun i ↦ ?_, ?_, fun p hp ↦ ?_, fun p hp ↦ ?_⟩
  · obtain hi | hi := (hlive' i).1 hi
    · exact Nat.lt_of_lt_of_le (he.live_lt i hi) (hw.next_eq ▸ Nat.le_add_right _ _)
    · exact ((hcame i).1 hi).2
  · rw [show e'.searcher = e.searcher from hw.searcher_eq, show e'.added = e.added ++ came from hw.added_eq,
      ← List.append_assoc]
    refine List.nodup_append.2 ⟨he.queue_nodup, hw.named_eq ▸ List.nodup_range', ?_⟩
    rintro i hi _ hi' rfl
    exact hold i ((he.queue i).1 hi) hi'
  · rw [show e'.searcher = e.searcher from hw.searcher_eq, show e'.added = e.added ++ came from hw.added_eq,
      ← List.append_assoc, List.mem_append, he.queue, hlive']
  · rw [show e'.removed = e.removed ++ log'.ids from hw.removed_eq]
    refine List.nodup_append.2 ⟨he.removed_nodup, hw.gone_nodup, ?_⟩
    rintro i hi _ hi' rfl
    exact (hgone i hi').1 hi
  · rw [show e'.removed = e.removed ++ log'.ids from hw.removed_eq] at hi
    obtain hi | hi := List.mem_append.1 hi
    · exact (hlive' i).2 (.inl (he.removed_live i hi))
    · exact (hgone i hi).2
  · rw [hlive']
    obtain hi | hi | hi := hw.seeds i hi
    · exact .inl (he.seeds_live i hi)
    · exact ((hw.held i).1 hi).imp_left (hlive i).1
    · exact .inr hi
  · rw [Departures.ids_append]
    refine List.nodup_append.2 ⟨he.once, hw.gone_nodup, ?_⟩
    rintro i hi _ hi' rfl
    obtain ⟨hremoved, hi'⟩ := hgone i hi'
    obtain hi | ⟨hlt, hnot⟩ := (he.ended i).1 hi
    · exact hremoved hi
    · exact Nat.not_lt.2 ((hcame i).1 (((hlive' i).1 hi').resolve_left hnot)).1 hlt
  · rw [Departures.ids_append, show e'.removed = e.removed ++ log'.ids from hw.removed_eq, List.mem_append,
      List.mem_append, he.ended, hlive', hcame]
    have hnext : e.nextStateId ≤ e'.nextStateId := hw.next_eq ▸ Nat.le_add_right _ _
    constructor
    · rintro ((hi | ⟨hlt, hnot⟩) | hi)
      · exact .inl (.inl hi)
      · exact .inr ⟨Nat.lt_of_lt_of_le hlt hnext, not_or.2 ⟨hnot, fun h ↦ Nat.not_lt.2 h.1 hlt⟩⟩
      · exact .inl (.inr hi)
    · rintro ((hi | hi) | ⟨hlt, hnot⟩)
      · exact .inl (.inl hi)
      · exact .inr hi
      · obtain ⟨hnot, hlate⟩ := not_or.1 hnot
        exact .inl (.inr ⟨Nat.lt_of_not_le fun hle ↦ hlate ⟨hle, hlt⟩, hnot⟩)
  · rw [Departures.cases_append, ← he.cases_eq]
    exact hw.cases_eq
  · rw [show e'.config = e.config from hw.config_eq]
    obtain hp | hp := List.mem_append.1 hp
    · exact (he.fits p hp).mono hw.reported_sub
    · exact hreported ▸ hfits p hp
  · have hcases : e'.cases.toList = e.cases.toList ++ log'.cases := hw.cases_eq
    obtain hp | ⟨c, hc, hkind⟩ := hw.reported p hp
    · obtain ⟨c, hc, hkind⟩ := he.reported p hp
      exact ⟨c, Array.mem_def.2 (hcases ▸ List.mem_append_left _ (Array.mem_def.1 hc)), hkind⟩
    · exact ⟨c, Array.mem_def.2 (hcases ▸ List.mem_append_right _ hc), hkind⟩

/-! ## Updates -/

/-- What an update makes of a machine. -/
structure Updated (e : Executor σ) (current : Option StateId) (report : StepReport) (e' : Executor σ) : Prop
    extends e.Settles e' where
  report_eq : report = ⟨current, e.added.filter (!e.removed.contains ·), e.removed.filter (!e.added.contains ·)⟩
  added_eq : e'.added = []
  reported_eq : e'.reported = e.reported
  queue : e'.searcher.states.Perm
    ((e.searcher.states ++ report.added).filter (!report.removed.contains ·))
  seeds_eq : ∀ id : StateId, e'.seeds[id]? = if id ∈ e.removed then none else e.seeds[id]?

theorem ends_update_all (current : Option StateId) (e : Executor σ) :
    Ends (fun _ ↦ True) ((update current).run e) fun p ↦ e.Updated current p.1 p.2 := by
  have hdrop : ∀ (ids : List StateId) (e : Executor σ), (∀ id : StateId, (ids.foldl drop e).seeds[id]? =
      if id ∈ ids then none else e.seeds[id]?) ∧ (ids.foldl drop e).reported = e.reported ∧
      (ids.foldl drop e).searcher = e.searcher := by
    intro ids
    induction ids with
    | nil => exact fun e ↦ ⟨fun id ↦ by simp, rfl, rfl⟩
    | cons id rest ih =>
      intro e
      obtain ⟨hseeds, hreported, hsearcher⟩ := ih (e.drop id)
      refine ⟨fun id' ↦ ?_, hreported, hsearcher⟩
      rw [List.foldl_cons, hseeds]
      change (if id' ∈ rest then none else (e.seeds.erase id)[id']?) = _
      rw [Focus.getElem?_erase_state]
      by_cases heq : id = id' <;> simp [heq, eq_comm]
  obtain ⟨hseeds, hreported, hsearcher⟩ := hdrop e.removed e
  have htold : Ends (fun _ ↦ True) ((update current).run e) fun p ↦ p.1 =
      ⟨current, e.added.filter (!e.removed.contains ·), e.removed.filter (!e.added.contains ·)⟩ ∧ p.2.added = [] ∧
      p.2.reported = e.reported ∧ p.2.searcher.states.Perm ((e.searcher.states ++ p.1.added).filter
        (!p.1.removed.contains ·)) ∧
      ∀ id : StateId, p.2.seeds[id]? = if id ∈ e.removed then none else e.seeds[id]? := by
    refine ends_pure ⟨rfl, rfl, hreported, ?_, hseeds⟩
    dsimp only
    rw [hsearcher]
    split
    · rename_i hsilent
      obtain ⟨-, hadded, hremoved⟩ := hsilent
      rw [List.isEmpty_iff.1 hadded, List.isEmpty_iff.1 hremoved]
      simp
    · exact Searcher.perm_update _ _ _ _
  exact ((ends_update current e).and htold).mono fun p ⟨h, h'⟩ ↦
    ⟨h, h'.1, h'.2.1, h'.2.2.1, h'.2.2.2.1, h'.2.2.2.2⟩

theorem Updated.live_iff (h : e.Updated current report e') (id : StateId) :
    e'.Live id ↔ e.Live id ∧ id ∉ e.removed := by
  rw [Live, Live, h.states_eq]
  split
  · simp [*]
  · simp [*]

theorem Level.update (he : e.Level log) (h : e.Updated current report e') : e'.Level log := by
  have hlive := h.live_iff
  have hqueue := h.queue
  have hadded : ∀ i, i ∈ report.added ↔ i ∈ e.added ∧ i ∉ e.removed := by simp [h.report_eq]
  have hremoved : ∀ i, i ∈ report.removed ↔ i ∈ e.removed ∧ i ∉ e.added := by simp [h.report_eq]
  obtain ⟨hqueued, hnew, hapart⟩ := List.nodup_append.1 he.queue_nodup
  have hnodup : (e.searcher.states ++ report.added).Nodup := by
    refine List.nodup_append.2 ⟨hqueued, ?_, fun i hi j hj ↦ hapart i hi j ((hadded j).1 hj).1⟩
    rw [h.report_eq]
    exact hnew.filter _
  refine ⟨fun id s hs ↦ ?_, fun i hi ↦ ?_, ?_, fun i ↦ ?_, ?_, ?_, fun i hi ↦ ?_, fun i seeds hi ↦ ?_, he.once,
    fun i ↦ ?_, ?_, fun p hp ↦ ?_, fun p hp ↦ ?_⟩
  · rw [h.states_eq] at hs
    split at hs
    · cases hs
    · exact he.named id s hs
  · exact h.next_eq ▸ he.live_lt i ((hlive i).1 hi).1
  · rw [h.added_eq, List.append_nil, hqueue.nodup_iff]
    exact hnodup.filter _
  · have hi := he.queue i
    have hdisjoint : i ∈ e.searcher.states → i ∉ e.added := fun hi hi' ↦ hapart i hi i hi' rfl
    rw [h.added_eq, List.append_nil, hqueue.mem_iff, hlive, ← hi]
    simp only [List.mem_filter, List.mem_append, hadded, Bool.not_eq_true', List.contains_eq_mem,
      decide_eq_false_iff_not, hremoved]
    tauto
  · rw [h.removed_eq]
    exact .nil
  · rw [h.removed_eq]
    exact List.forall_mem_nil _
  · rw [h.seeds_eq] at hi
    split at hi
    · exact absurd rfl hi
    · exact (hlive i).2 ⟨he.seeds_live i hi, ‹_›⟩
  · rw [h.seeds_eq] at hi
    split at hi
    · cases hi
    · exact h.next_eq ▸ he.fit i seeds hi
  · rw [he.ended, h.removed_eq, h.next_eq, hlive]
    have hended : i ∈ e.removed → i < e.nextStateId := fun hi ↦ he.live_lt i (he.removed_live i hi)
    simp only [List.not_mem_nil, false_or]
    tauto
  · rw [h.cases_eq, he.cases_eq]
  · rw [h.steady.config_eq, h.reported_eq]
    exact he.fits p hp
  · rw [h.cases_eq]
    exact he.reported p (h.reported_eq ▸ hp)

/-! ## Visits -/

/-- What is done to a live state. -/
inductive Errand : Exec σ Unit → Prop
  | step : Errand Exec.step
  | giveUp (reason : String) : Errand (Exec.terminateEarly reason)

/-- Work on live states, one after another, and the books of that. -/
inductive Visits : Executor σ → Departures → Executor σ → Prop
  | done (e : Executor σ) : Visits e [] e
  | visit {e e' : Executor σ} {id : StateId} {s : State} {work : Exec σ Unit} {r : Except PathError Unit}
      {g : Focus σ} {log log' : Departures} (hwork : Errand work) (hs : e.states[id]? = some s)
      (hrun : work.run.run (e.focusOn id s) = .ok (r, g)) (h : (e.focusOn id s).Books log g)
      (hrest : Visits { g.executor with states := g.executor.states.insert id g.state } log' e') :
      Visits e (log ++ log') e'

theorem Visits.level (h : e.Visits log' e') (he : e.Level log) : e'.Level (log ++ log') := by
  induction h generalizing log with
  | done e => exact (List.append_nil log).symm ▸ he
  | visit _ hs _ h _ ih => exact List.append_assoc .. ▸ ih (he.visit hs h)

theorem Visits.trans (h : e.Visits log e') (h' : e'.Visits log' e'') : e.Visits (log ++ log') e'' := by
  induction h with
  | done e => exact h'
  | visit hwork hs hrun hbooks _ ih => exact List.append_assoc .. ▸ .visit hwork hs hrun hbooks (ih h')

theorem Visits.grows (h : e.Visits log' e') (he : e.Level log) : e'.searcher = e.searcher ∧
    e.nextStateId ≤ e'.nextStateId ∧ ∃ came, e'.added = e.added ++ came ∧ ∀ id ∈ came, e.nextStateId ≤ id := by
  induction h generalizing log with
  | done e => exact ⟨rfl, Nat.le_refl _, [], by simp, nofun⟩
  | @visit e e' id s _ _ g log log' _ hs _ h _ ih =>
    obtain ⟨came, hwrites⟩ := h.writes
    have hw := Focus.Writes.visit (f := ⟨e, s⟩) hs (he.named id s hs) hwrites
    obtain ⟨hsearcher, hle, came', hadded, hcame'⟩ := ih (he.visit hs h)
    have hnext : e.nextStateId ≤ g.executor.nextStateId := hw.next_eq ▸ Nat.le_add_right _ _
    refine ⟨hsearcher.trans hw.searcher_eq, Nat.le_trans hnext hle, came ++ came', ?_, fun i hi ↦ ?_⟩
    · rw [hadded, show g.executor.added = e.added ++ came from hw.added_eq, List.append_assoc]
    · obtain hi | hi := List.mem_append.1 hi
      · rw [hw.named_eq, List.mem_range'_1] at hi
        exact hi.1
      · exact Nat.le_trans hnext (hcame' i hi)

theorem ends_visit_books {work : Exec σ Unit} (hwork : Errand work) (he : e.SeedsFit)
    (hbooked : ∀ s, e.states[id]? = some s →
      work.Ends (fun _ ↦ True) (e.focusOn id s) fun _ f ↦ (e.focusOn id s).Booked f) :
    Ends (fun _ ↦ True) ((visit id work).run e) fun q ↦ ∃ log, e.Visits log q.2 := by
  refine ends_run_visit (fun _ ↦ ⟨[], .done e⟩) fun s hs ↦ ?_
  refine (hbooked s hs).with_run.mono fun _ f h ↦ ?_
  obtain ⟨log, hbooks⟩ := h.1 he
  exact ⟨log ++ [], .visit hwork hs h.2 hbooks (.done _)⟩

end Executor

end Symex
