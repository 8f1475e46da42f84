import Symex.Proofs.Feasibility.Work

namespace Symex

variable {σ : Type}

/-- Why a state ended. -/
inductive Departure where
  /-- There is a test case for it. -/
  | reported (testCase : TestCase)
  /-- It became a part of another state. -/
  | absorbed (other : StateId)
  /-- It ended with an error that was reported before. -/
  | repeated (error : PathError)

def Departure.case? : Departure → Option TestCase
  | reported testCase => some testCase
  | _ => none

/-- What is known of the state `id` that ended so, from the configuration and the errors that were reported. -/
def Departure.Fits (config : Config) (reported : List (Location × String)) (id : StateId) : Departure → Prop
  | .reported testCase => testCase.state = id
  | .absorbed other => config.mergeAtJoinPoints = true ∧ other ≠ id
  | .repeated error => config.emitAllErrors = false ∧ (error.location, error.payload.message) ∈ reported

theorem Departure.Fits.mono {config : Config} {reported reported' : List (Location × String)} {id : StateId}
    {d : Departure} (h : d.Fits config reported id) (hsub : ∀ p ∈ reported, p ∈ reported') :
    d.Fits config reported' id := by
  cases d with
  | reported _ => exact h
  | absorbed _ => exact h
  | repeated _ => exact ⟨h.1, hsub _ h.2⟩

/-- The states that ended, in this order. -/
abbrev Departures := List (StateId × Departure)

namespace Departures

def ids (log : Departures) : List StateId := log.map (·.1)

def cases (log : Departures) : List TestCase := log.filterMap (·.2.case?)

@[simp] theorem ids_append (log log' : Departures) : ids (log ++ log') = ids log ++ ids log' := List.map_append

@[simp] theorem cases_append (log log' : Departures) : cases (log ++ log') = cases log ++ cases log' :=
  List.filterMap_append

end Departures

def Executor.Named (e : Executor σ) : Prop := ∀ (id : StateId) (s : State), e.states[id]? = some s → s.id = id

/-- Seeds are those of states that have names, and leave free what they do not mention. -/
def Executor.SeedsFit (e : Executor σ) : Prop := ∀ (id : StateId) (seeds : List Seed), e.seeds[id]? = some seeds →
  id < e.nextStateId ∧ ∀ seed ∈ seeds, seed.assignment.free

namespace Focus

theorem getElem?_insert_state {α : Type} (states : Std.TreeMap StateId α) (id id' : StateId) (s : α) :
    (states.insert id s)[id']? = if id = id' then some s else states[id']? := by
  rw [Std.TreeMap.getElem?_insert]
  simp only [Nat.compare_eq_eq]

theorem getElem?_erase_state {α : Type} (states : Std.TreeMap StateId α) (id id' : StateId) :
    (states.erase id)[id']? = if id = id' then none else states[id']? := by
  rw [Std.TreeMap.getElem?_erase]
  simp only [Nat.compare_eq_eq]

end Focus

namespace Executor

open Focus

theorem SeedsFit.insert {e : Executor σ} {id : StateId} {seeds : List Seed} (he : e.SeedsFit)
    (hid : id < e.nextStateId) (hseeds : ∀ seed ∈ seeds, seed.assignment.free) :
    SeedsFit { e with seeds := e.seeds.insert id seeds } := by
  intro id' seeds' h
  dsimp only at h ⊢
  rw [getElem?_insert_state] at h
  split at h
  · obtain rfl := Option.some.inj h
    exact ⟨‹id = id'› ▸ hid, hseeds⟩
  · exact he id' seeds' h

theorem SeedsFit.erase {e : Executor σ} (he : e.SeedsFit) (id : StateId) :
    SeedsFit { e with seeds := e.seeds.erase id } := by
  intro id' seeds' h
  dsimp only at h ⊢
  rw [getElem?_erase_state] at h
  split at h
  · cases h
  · exact he id' seeds' h

end Executor

namespace Focus

variable {f g h : Focus σ} {named named' came came' gone gone' : List StateId} {cases cases' : List TestCase}

/-- The state is worked on, or among the other live ones. -/
def Has (f : Focus σ) (id : StateId) : Prop := id = f.state.id ∨ f.executor.states[id]? ≠ none

/-- The names in `named` were given, which are the next ones, the states of `came` came up, and those of `gone`
ended, with `cases` as test cases. -/
structure Writes (named came gone : List StateId) (cases : List TestCase) (f g : Focus σ) : Prop where
  id_eq : g.state.id = f.state.id
  held : ∀ id, g.Has id ↔ f.Has id ∨ id ∈ came
  named_eq : named = List.range' f.executor.nextStateId named.length
  next_eq : g.executor.nextStateId = f.executor.nextStateId + named.length
  added_eq : g.executor.added = f.executor.added ++ named
  removed_eq : g.executor.removed = f.executor.removed ++ gone
  gone_nodup : gone.Nodup
  gone : ∀ id ∈ gone, id ∉ f.executor.removed ∧ g.Has id
  cases_eq : g.executor.cases.toList = f.executor.cases.toList ++ cases
  reported_sub : ∀ p ∈ f.executor.reported, p ∈ g.executor.reported
  reported : ∀ p ∈ g.executor.reported, p ∈ f.executor.reported ∨
    ∃ c ∈ cases, ∃ kind, c.termination = .error kind p.2
  searcher_eq : g.executor.searcher = f.executor.searcher
  config_eq : g.executor.config = f.executor.config
  seeds : ∀ id : StateId, g.executor.seeds[id]? ≠ none →
    f.executor.seeds[id]? ≠ none ∨ g.Has id ∨ id ∈ named
  fit : f.executor.SeedsFit → g.executor.SeedsFit
  names : f.executor.Named → g.executor.Named

theorem Writes.refl (f : Focus σ) : f.Writes [] [] [] [] f where
  id_eq := rfl
  held id := by simp
  named_eq := rfl
  next_eq := rfl
  added_eq := by simp
  removed_eq := by simp
  gone_nodup := .nil
  gone := nofun
  cases_eq := by simp
  reported_sub _ := id
  reported _ := .inl
  searcher_eq := rfl
  config_eq := rfl
  seeds _ := .inl
  fit := id
  names := id

theorem Writes.trans (hf : f.Writes named came gone cases g) (hg : g.Writes named' came' gone' cases' h) :
    f.Writes (named ++ named') (came ++ came') (gone ++ gone') (cases ++ cases') h where
  id_eq := hg.id_eq.trans hf.id_eq
  held id := by rw [hg.held, hf.held, List.mem_append, or_assoc]
  named_eq := by
    have hnext := hg.named_eq
    rw [hf.next_eq] at hnext
    rw [List.length_append, ← List.range'_append_1, ← hf.named_eq, ← hnext]
  next_eq := by rw [hg.next_eq, hf.next_eq, List.length_append, Nat.add_assoc]
  added_eq := by rw [hg.added_eq, hf.added_eq, List.append_assoc]
  removed_eq := by rw [hg.removed_eq, hf.removed_eq, List.append_assoc]
  gone_nodup := by
    refine List.nodup_append.2 ⟨hf.gone_nodup, hg.gone_nodup, ?_⟩
    rintro id hid _ hid' rfl
    exact (hg.gone id hid').1 (hf.removed_eq ▸ List.mem_append_right _ hid)
  gone id hid := by
    obtain hid | hid := List.mem_append.1 hid
    · exact ⟨(hf.gone id hid).1, (hg.held id).2 (.inl (hf.gone id hid).2)⟩
    · refine ⟨fun hmem ↦ (hg.gone id hid).1 ?_, (hg.gone id hid).2⟩
      exact hf.removed_eq ▸ List.mem_append_left _ hmem
  cases_eq := by rw [hg.cases_eq, hf.cases_eq, List.append_assoc]
  reported_sub p hp := hg.reported_sub p (hf.reported_sub p hp)
  reported p hp := by
    obtain hp | ⟨c, hc, hkind⟩ := hg.reported p hp
    · refine (hf.reported p hp).imp_right fun ⟨c, hc, hkind⟩ ↦ ⟨c, List.mem_append_left _ hc, hkind⟩
    · exact .inr ⟨c, List.mem_append_right _ hc, hkind⟩
  searcher_eq := hg.searcher_eq.trans hf.searcher_eq
  config_eq := hg.config_eq.trans hf.config_eq
  seeds id hid := by
    obtain hid | hid | hid := hg.seeds id hid
    · refine (hf.seeds id hid).imp_right fun h ↦ h.imp (fun h ↦ (hg.held id).2 (.inl h)) ?_
      exact List.mem_append_left _
    · exact .inr (.inl hid)
    · exact .inr (.inr (List.mem_append_right _ hid))
  fit hfit := hg.fit (hf.fit hfit)
  names hnames := hg.names (hf.names hnames)

theorem Writes.withSeeds {seeds : Std.TreeMap StateId (List Seed)} (h : f.Writes named came gone cases g)
    (hseeds : ∀ id : StateId, seeds[id]? ≠ none → g.executor.seeds[id]? ≠ none ∨ g.Has id ∨ id ∈ named)
    (hfit : f.executor.SeedsFit → Executor.SeedsFit { g.executor with seeds }) :
    f.Writes named came gone cases { g with executor := { g.executor with seeds } } :=
  { h with
    seeds id hid := by
      obtain hid | hid := hseeds id hid
      · exact h.seeds id hid
      · exact .inr hid
    fit := hfit }

theorem Writes.setSeeds {id : StateId} {seeds : List Seed} (h : f.Writes named came gone cases g)
    (hid : g.Has id ∨ id ∈ named)
    (hfit : f.executor.SeedsFit → id < g.executor.nextStateId ∧ ∀ seed ∈ seeds, seed.assignment.free) :
    f.Writes named came gone cases
      { g with executor := { g.executor with seeds := g.executor.seeds.insert id seeds } } := by
  refine h.withSeeds (fun id' hid' ↦ ?_) fun hf ↦ (h.fit hf).insert (hfit hf).1 (hfit hf).2
  rw [getElem?_insert_state] at hid'
  split at hid'
  · exact .inr (‹id = id'› ▸ hid)
  · exact .inl hid'

theorem Writes.dropSeeds (h : f.Writes named came gone cases g) (id : StateId) :
    f.Writes named came gone cases
      { g with executor := { g.executor with seeds := g.executor.seeds.erase id } } := by
  refine h.withSeeds (fun id' hid' ↦ ?_) fun hf ↦ (h.fit hf).erase id
  rw [getElem?_erase_state] at hid'
  split at hid'
  · exact absurd rfl hid'
  · exact .inl hid'

theorem Writes.visit {id : StateId} {s : State} (hs : f.executor.states[id]? = some s) (hname : s.id = id)
    (h : Writes named came gone cases ⟨{ f.executor with states := f.executor.states.erase id }, s⟩ g) :
    f.Writes named came gone cases
      ⟨{ g.executor with states := g.executor.states.insert id g.state }, f.state⟩ := by
  have hbefore : ∀ i, Has ⟨{ f.executor with states := f.executor.states.erase id }, s⟩ i ↔
      f.executor.states[i]? ≠ none := by
    intro i
    simp only [Has, hname, getElem?_erase_state]
    by_cases heq : id = i
    · simp [← heq, hs]
    · simp [heq, Ne.symm heq]
  have hafter : ∀ i, Has ⟨{ g.executor with states := g.executor.states.insert id g.state }, f.state⟩ i ↔
      i = f.state.id ∨ g.Has i := by
    intro i
    simp only [Has, h.id_eq, hname, getElem?_insert_state]
    by_cases heq : id = i
    · simp [← heq]
    · simp [heq, Ne.symm heq]
  exact {
    id_eq := rfl
    held i := by rw [hafter, h.held, hbefore, Has, or_assoc]
    named_eq := h.named_eq
    next_eq := h.next_eq
    added_eq := h.added_eq
    removed_eq := h.removed_eq
    gone_nodup := h.gone_nodup
    gone i hi := ⟨(h.gone i hi).1, (hafter i).2 (.inr (h.gone i hi).2)⟩
    cases_eq := h.cases_eq
    reported_sub := h.reported_sub
    reported := h.reported
    searcher_eq := h.searcher_eq
    config_eq := h.config_eq
    seeds i hi := (h.seeds i hi).imp_right fun hi ↦ hi.imp_left fun hi ↦ (hafter i).2 (.inr hi)
    fit := h.fit
    names hnames i t ht := by
      have hnames' : g.executor.Named := h.names fun i t ht ↦ by
        dsimp only at ht
        rw [getElem?_erase_state] at ht
        split at ht
        · cases ht
        · exact hnames i t ht
      dsimp only at ht
      rw [getElem?_insert_state] at ht
      split at ht
      · rename_i heq
        exact Option.some.inj ht ▸ h.id_eq.trans (hname.trans heq)
      · exact hnames' i t ht }

/-- The books from one machine to another: at which points states ended, and why. -/
inductive Books : Focus σ → Departures → Focus σ → Prop
  /-- States may come up. -/
  | keeps {f g : Focus σ} {came : List StateId} (h : f.Writes came came [] [] g) : Books f [] g
  | reports {f g : Focus σ} {came : List StateId} {testCase : TestCase} (hstate : testCase.state = f.state.id)
      (h : f.Writes came came [f.state.id] [testCase] g) : Books f [(f.state.id, .reported testCase)] g
  /-- Where states meet one of them takes over what the other one has. -/
  | absorbs {f g : Focus σ} {id : StateId} {other merged : State} {node : Option NodeId}
      (hconfig : f.executor.config.mergeAtJoinPoints = true) (hne : id ≠ f.state.id)
      (hother : f.executor.states[id]? = some other) (hlive : id ∉ f.executor.removed)
      (hmerge : other.merge f.state = .ok (some merged))
      (hmerged : g.executor.states[id]? = some { merged with node })
      (h : f.Writes [] [] [f.state.id] [] g) : Books f [(f.state.id, .absorbed id)] g
  | repeats {f g : Focus σ} {error : PathError} {details : Option String}
      (hrun : (Exec.terminateOnError error details).run.run f = .ok (.ok (), g))
      (hconfig : f.executor.config.emitAllErrors = false)
      (hreported : (error.location, error.payload.message) ∈ f.executor.reported)
      (h : f.Writes [] [] [f.state.id] [] g) : Books f [(f.state.id, .repeated error)] g
  | trans {f g h : Focus σ} {log log' : Departures} (hf : Books f log g) (hg : Books g log' h) :
      Books f (log ++ log') h
  /-- Another state is worked on in between. -/
  | visit {f g : Focus σ} {log : Departures} {id : StateId} {s : State}
      (hs : f.executor.states[id]? = some s) (hname : s.id = id)
      (h : Books ⟨{ f.executor with states := f.executor.states.erase id }, s⟩ log g) :
      Books f log ⟨{ g.executor with states := g.executor.states.insert id g.state }, f.state⟩

variable {log log' : Departures}

theorem Books.writes (h : f.Books log g) : ∃ came, f.Writes came came log.ids log.cases g := by
  induction h with
  | keeps h => exact ⟨_, h⟩
  | reports _ h => exact ⟨_, h⟩
  | absorbs _ _ _ _ _ _ h => exact ⟨_, h⟩
  | repeats _ _ _ h => exact ⟨_, h⟩
  | trans _ _ ihf ihg =>
    obtain ⟨came, hf⟩ := ihf
    obtain ⟨came', hg⟩ := ihg
    exact ⟨came ++ came', by simpa using hf.trans hg⟩
  | visit hs hname _ ih =>
    obtain ⟨came, h⟩ := ih
    exact ⟨came, h.visit hs hname⟩

theorem Books.fits (h : f.Books log g) :
    ∀ p ∈ log, p.2.Fits f.executor.config g.executor.reported p.1 := by
  induction h with
  | keeps _ => exact nofun
  | reports hstate _ => exact List.forall_mem_singleton.2 hstate
  | absorbs hconfig hne _ _ _ _ _ => exact List.forall_mem_singleton.2 ⟨hconfig, hne⟩
  | repeats _ hconfig hreported h => exact List.forall_mem_singleton.2 ⟨hconfig, h.reported_sub _ hreported⟩
  | trans hf hg ihf ihg =>
    obtain ⟨_, hf⟩ := hf.writes
    obtain ⟨_, hg⟩ := hg.writes
    intro p hp
    obtain hp | hp := List.mem_append.1 hp
    · exact (ihf p hp).mono hg.reported_sub
    · exact hf.config_eq ▸ ihg p hp
  | visit _ _ _ ih => exact ih

/-- There are books from one machine to the other, if its seeds are as they should be. -/
def Booked (f g : Focus σ) : Prop := f.executor.SeedsFit → ∃ log, f.Books log g

theorem Writes.booked (h : f.Writes came came [] [] g) : f.Booked g := fun _ ↦ ⟨[], .keeps h⟩

theorem Booked.refl (f : Focus σ) : f.Booked f := (Writes.refl f).booked

theorem Booked.trans (hf : f.Booked g) (hg : g.Booked h) : f.Booked h := fun hfit ↦ by
  obtain ⟨log, hf⟩ := hf hfit
  obtain ⟨_, hwrites⟩ := hf.writes
  obtain ⟨log', hg⟩ := hg (hwrites.fit hfit)
  exact ⟨log ++ log', hf.trans hg⟩

theorem Booked.fit (h : f.Booked g) (hfit : f.executor.SeedsFit) : g.executor.SeedsFit := by
  obtain ⟨_, h⟩ := h hfit
  obtain ⟨_, hwrites⟩ := h.writes
  exact hwrites.fit hfit

theorem Booked.has {id : StateId} (h : f.Booked g) (hfit : f.executor.SeedsFit) (hid : f.Has id) : g.Has id := by
  obtain ⟨_, h⟩ := h hfit
  obtain ⟨_, hwrites⟩ := h.writes
  exact (hwrites.held id).2 (.inl hid)

theorem Booked.visit {id : StateId} {s : State} (hs : f.executor.states[id]? = some s) (hname : s.id = id)
    (h : Booked ⟨{ f.executor with states := f.executor.states.erase id }, s⟩ g) :
    f.Booked ⟨{ g.executor with states := g.executor.states.insert id g.state }, f.state⟩ := fun hfit ↦ by
  obtain ⟨log, h⟩ := h hfit
  exact ⟨log, .visit hs hname h⟩

end Focus

end Symex
