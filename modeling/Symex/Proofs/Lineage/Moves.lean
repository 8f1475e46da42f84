import Symex.Proofs.Forks
import Symex.Proofs.Lineage.Books

namespace Symex

open Checked

variable {σ α β : Type} {I : Trust} {twins lost lost' : Prop}

theorem Checked.ends_any (x : Checked α) : Checked.Ends (fun _ ↦ True) x fun _ ↦ True :=
  ends_true_iff.2 fun _ _ ↦ trivial

namespace Executor

variable {e e' e'' : Executor σ}

/-- There is no path that is replayed, or there are seeds that are followed instead. -/
def Unled (e : Executor σ) : Prop := e.replayPath = none ∨ e.seeds.isEmpty = false

/-- What leads the paths of states stays as it is, but for seeds that are used up. -/
structure Steady (e e' : Executor σ) : Prop where
  config_eq : e'.config = e.config
  replayPath_eq : e'.replayPath = e.replayPath
  seeds : e.seeds.isEmpty → e'.seeds.isEmpty

theorem Steady.refl (e : Executor σ) : e.Steady e := ⟨rfl, rfl, id⟩

theorem Steady.trans (h : e.Steady e') (h' : e'.Steady e'') : e.Steady e'' :=
  ⟨h'.config_eq.trans h.config_eq, h'.replayPath_eq.trans h.replayPath_eq, fun hs ↦ h'.seeds (h.seeds hs)⟩

theorem Steady.unled (h : e.Steady e') (he' : e'.Unled) : e.Unled := by
  obtain he' | he' := he'
  · exact .inl (h.replayPath_eq ▸ he')
  · refine .inr (Bool.eq_false_iff.2 fun he ↦ ?_)
    rw [h.seeds he] at he'
    cases he'

end Executor

namespace Focus

variable {f g h : Focus σ}

def Going (f : Focus σ) : Prop := f.state.id ∉ f.executor.removed

/-- The state `s` can be what became of the state, or of a copy of it. -/
structure Part (f : Focus σ) (s : State) : Prop where
  valid : f.state.constraints.Valid → s.constraints.Valid
  path : f.executor.Unled ∨ s.path = f.state.path

theorem Part.refl (f : Focus σ) : f.Part f.state := ⟨id, .inr rfl⟩

theorem Part.trans {s : State} (hf : f.Part g.state) (hsteady : f.executor.Steady g.executor)
    (hg : g.Part s) : f.Part s where
  valid hc := hg.valid (hf.valid hc)
  path := hg.path.elim (fun hu ↦ .inl (hsteady.unled hu)) fun heq ↦ hf.path.imp_right heq.trans

/-- A test case was there before, or it is one of the state or of a copy of it. Where there are no copies the
state has ended with it. -/
def Told (f g : Focus σ) (c : TestCase) : Prop :=
  c ∈ f.executor.cases ∨ f.executor.Unled ∨
    c.path = f.state.path ∧ (g.executor.nextStateId = f.executor.nextStateId → ¬g.Going)

theorem Told.trans {c : TestCase} (hc : g.Told h c) (hcases : c ∈ g.executor.cases → f.Told g c)
    (hpart : f.Part g.state) (hsteady : f.executor.Steady g.executor)
    (hle : f.executor.nextStateId ≤ g.executor.nextStateId) (hle' : g.executor.nextStateId ≤ h.executor.nextStateId)
    (hgoing : h.Going → g.Going) : f.Told h c := by
  obtain hc | hu | ⟨hpath, hends⟩ := hc
  · obtain hc | hu | ⟨hpath, hends⟩ := hcases hc
    · exact .inl hc
    · exact .inr (.inl hu)
    · exact .inr (.inr ⟨hpath, fun heq hh ↦ hends (Nat.le_antisymm (heq ▸ hle') hle) (hgoing hh)⟩)
  · exact .inr (.inl (hsteady.unled hu))
  · refine .inr (hpart.path.imp_right fun heq ↦ ⟨hpath.trans heq, fun hnext ↦ hends ?_⟩)
    exact Nat.le_antisymm (hnext ▸ hle) hle'

/-- Work on the state alone, in which it may end. -/
structure Own (I : Trust) (f g : Focus σ) : Prop where
  id_eq : g.state.id = f.state.id
  part : f.Part g.state
  narrower : ∀ a, I.Solves a g.state.constraints → I.Solves a f.state.constraints
  states_eq : ∀ id : StateId, g.executor.states[id]? = f.executor.states[id]?
  next_le : f.executor.nextStateId ≤ g.executor.nextStateId
  removed : ∀ id ∈ g.executor.removed, id ∈ f.executor.removed ∨ id = f.state.id
  removed_sub : ∀ id ∈ f.executor.removed, id ∈ g.executor.removed
  cases : ∀ c ∈ g.executor.cases, f.Told g c
  steady : f.executor.Steady g.executor

theorem Own.going (h : f.Own I g) (hg : g.Going) : f.Going := fun hmem ↦
  hg (h.id_eq ▸ h.removed_sub _ hmem)

theorem Own.trans (hf : f.Own I g) (hg : g.Own I h) : f.Own I h where
  id_eq := hg.id_eq.trans hf.id_eq
  part := hf.part.trans hf.steady hg.part
  narrower a ha := hf.narrower a (hg.narrower a ha)
  states_eq id := (hg.states_eq id).trans (hf.states_eq id)
  next_le := Nat.le_trans hf.next_le hg.next_le
  removed id hid := (hg.removed id hid).elim (hf.removed id) fun heq ↦ .inr (heq.trans hf.id_eq)
  removed_sub id hid := hg.removed_sub id (hf.removed_sub id hid)
  cases c hc := (hg.cases c hc).trans (hf.cases c) hf.part hf.steady hf.next_le hg.next_le (hg.going ·)
  steady := hf.steady.trans hg.steady

/-- The state became several, of which those with new names are new. What is at a place and has not ended
is as `P` says. -/
structure Parts (P : Branch → State → Prop) (f g : Focus σ) : Prop where
  id_eq : g.state.id = f.state.id
  part : f.Part g.state
  own : g.Going → P .current g.state
  old : ∀ id < f.executor.nextStateId, g.executor.states[id]? = f.executor.states[id]?
  named : ∀ id ≥ f.executor.nextStateId, ∀ s, g.executor.states[id]? = some s →
    s.id = id ∧ id < g.executor.nextStateId
  parts : ∀ id ≥ f.executor.nextStateId, ∀ s, g.executor.states[id]? = some s → f.Part s
  new : ∀ id ≥ f.executor.nextStateId, ∀ s, g.executor.states[id]? = some s → id ∉ g.executor.removed →
    P (.forked id) s
  next_le : f.executor.nextStateId ≤ g.executor.nextStateId
  removed : ∀ id ∈ g.executor.removed, id ∈ f.executor.removed ∨ id = f.state.id ∨
    f.executor.nextStateId ≤ id ∧ id < g.executor.nextStateId
  removed_sub : ∀ id ∈ f.executor.removed, id ∈ g.executor.removed
  cases : ∀ c ∈ g.executor.cases, f.Told g c
  steady : f.executor.Steady g.executor

/-- What is at a place and has not ended has only solutions within its bound. -/
abbrev Spread (I : Trust) (bound : Branch → Assignment → Prop) (f g : Focus σ) : Prop :=
  f.Parts (fun b s ↦ ∀ a, I.Solves a s.constraints → bound b a) g

/-- The state is divided: its parts have none but its solutions and, unless there may be twins, none of
them in common. -/
structure Divide (I : Trust) (twins : Prop) (bound : Branch → Assignment → Prop) (f g : Focus σ) :
    Prop where
  going : f.Going
  spread : f.Spread I bound g
  within : ∀ b a, bound b a → I.Solves a f.state.constraints
  apart : ¬twins → ∀ b b' a, b ≠ b' → bound b a → ¬bound b' a

/-- The state ends, and a live state takes over its solutions. -/
structure Merge (I : Trust) (f g : Focus σ) (id : StateId) (other merged : State) : Prop where
  going : f.Going
  other_eq : f.executor.states[id]? = some other
  other_going : id ∉ f.executor.removed
  id_eq : merged.id = other.id
  path_eq : merged.path = other.path
  solves : ∀ a, I.Solves a merged.constraints →
    I.Solves a other.constraints ∨ I.Solves a f.state.constraints
  state_eq : g.state = f.state
  states_eq : g.executor.states = f.executor.states.insert id merged
  next_eq : g.executor.nextStateId = f.executor.nextStateId
  removed_eq : g.executor.removed = f.executor.removed ++ [f.state.id]
  cases_eq : g.executor.cases = f.executor.cases
  steady : f.executor.Steady g.executor

/-- The focus after a side was taken from the path that is replayed. -/
def withReplayPath (f : Focus σ) (rest : List Bool) : Focus σ :=
  { f with executor := { f.executor with replayPath := some rest } }

/-- What work can make of the machine and the state it works on. -/
inductive Moves (I : Trust) (twins lost : Prop) : Focus σ → Focus σ → Prop
  | own {f g : Focus σ} (h : f.Own I g) : Moves I twins lost f g
  | trans {f g h : Focus σ} (hf : Moves I twins lost f g) (hg : Moves I twins lost g h) : Moves I twins lost f h
  /-- A side is taken from the path that is replayed, and the state goes there. -/
  | follow {f g : Focus σ} {side : Bool} {rest : List Bool}
      (hreplay : f.executor.replayPath = some (side :: rest)) (h : (f.withReplayPath rest).Own I g)
      (hgoing : g.Going) :
      Moves I twins lost f (g.recorded side false)
  /-- A side is taken that the state cannot go to, and then it is lost. -/
  | stray {f : Focus σ} {side : Bool} {rest : List Bool} (hlost : lost)
      (hreplay : f.executor.replayPath = some (side :: rest)) : Moves I twins lost f (f.withReplayPath rest)
  | divide {f g : Focus σ} {bound : Branch → Assignment → Prop} (h : f.Divide I twins bound g) :
      Moves I twins lost f g
  | merge {f g : Focus σ} {id : StateId} {other merged : State} (h : f.Merge I g id other merged) :
      Moves I twins lost f g
  /-- Another state is worked on in between. -/
  | visit {f g : Focus σ} {id : StateId} {s : State} (hs : f.executor.states[id]? = some s)
      (h : Moves I twins lost ⟨{ f.executor with states := f.executor.states.erase id }, s⟩ g) :
      Moves I twins lost f ⟨{ g.executor with states := g.executor.states.insert id g.state }, f.state⟩

theorem Moves.mono (h : f.Moves I twins lost g) (hlost : lost → lost') : f.Moves I twins lost' g := by
  induction h with
  | own h => exact .own h
  | trans _ _ ihf ihg => exact .trans ihf ihg
  | follow hreplay h hgoing => exact .follow hreplay h hgoing
  | stray h hreplay => exact .stray (hlost h) hreplay
  | divide h => exact .divide h
  | merge h => exact .merge h
  | visit hs _ ih => exact .visit hs ih

/-! ## Names -/

/-- States are found by their names, all of which were given to them by the machine. -/
structure Tidy (f : Focus σ) : Prop where
  named : ∀ id s, f.executor.states[id]? = some s → s.id = id ∧ id < f.executor.nextStateId
  own_lt : f.state.id < f.executor.nextStateId
  own_none : f.executor.states[f.state.id]? = none
  removed_lt : ∀ id ∈ f.executor.removed, id < f.executor.nextStateId

/-- Names are given once, and states that have ended do not come back. -/
structure Succeeds (f g : Focus σ) : Prop where
  tidy : g.Tidy
  id_eq : g.state.id = f.state.id
  config_eq : g.executor.config = f.executor.config
  next_le : f.executor.nextStateId ≤ g.executor.nextStateId
  removed_sub : ∀ id ∈ f.executor.removed, id ∈ g.executor.removed
  old : ∀ id < f.executor.nextStateId, f.executor.states[id]? = none → g.executor.states[id]? = none

theorem Own.succeeds (h : f.Own I g) (hf : f.Tidy) : f.Succeeds g := by
  refine ⟨⟨fun id s hs ↦ ?_, ?_, ?_, fun id hid ↦ ?_⟩, h.id_eq, h.steady.config_eq, h.next_le, h.removed_sub,
    fun id _ hnone ↦ (h.states_eq id).trans hnone⟩
  · obtain ⟨hname, hlt⟩ := hf.named id s (h.states_eq id ▸ hs)
    exact ⟨hname, Nat.lt_of_lt_of_le hlt h.next_le⟩
  · exact h.id_eq ▸ Nat.lt_of_lt_of_le hf.own_lt h.next_le
  · rw [h.id_eq, h.states_eq]
    exact hf.own_none
  · obtain hid | rfl := h.removed id hid
    · exact Nat.lt_of_lt_of_le (hf.removed_lt id hid) h.next_le
    · exact Nat.lt_of_lt_of_le hf.own_lt h.next_le

theorem Parts.succeeds {P : Branch → State → Prop} (h : f.Parts P g) (hf : f.Tidy) : f.Succeeds g := by
  have hown : g.state.id < f.executor.nextStateId := h.id_eq ▸ hf.own_lt
  refine ⟨⟨fun id s hs ↦ ?_, ?_, ?_, fun id hid ↦ ?_⟩, h.id_eq, h.steady.config_eq, h.next_le, h.removed_sub,
    fun id hlt hnone ↦ (h.old id hlt).trans hnone⟩
  · by_cases hlt : id < f.executor.nextStateId
    · obtain ⟨hname, -⟩ := hf.named id s (h.old id hlt ▸ hs)
      exact ⟨hname, Nat.lt_of_lt_of_le hlt h.next_le⟩
    · exact h.named id (Nat.le_of_not_lt hlt) s hs
  · exact Nat.lt_of_lt_of_le hown h.next_le
  · rw [h.old _ hown, h.id_eq]
    exact hf.own_none
  · obtain hid | rfl | hid := h.removed id hid
    · exact Nat.lt_of_lt_of_le (hf.removed_lt id hid) h.next_le
    · exact Nat.lt_of_lt_of_le hf.own_lt h.next_le
    · exact hid.2

theorem Merge.succeeds {id : StateId} {other merged : State} (h : f.Merge I g id other merged)
    (hf : f.Tidy) : f.Succeeds g := by
  obtain ⟨hother, hlt⟩ := hf.named id other h.other_eq
  refine ⟨⟨fun id' s hs ↦ ?_, ?_, ?_, fun id' hid' ↦ ?_⟩, congrArg State.id h.state_eq,
    h.steady.config_eq, Nat.le_of_eq h.next_eq.symm, fun id' hid' ↦ ?_, fun id' _ hnone ↦ ?_⟩
  · rw [h.states_eq, getElem?_insert_state] at hs
    split at hs
    · rename_i heq
      obtain rfl := Option.some.inj hs
      exact ⟨heq ▸ h.id_eq.trans hother, heq ▸ h.next_eq ▸ hlt⟩
    · exact h.next_eq ▸ hf.named id' s hs
  · rw [h.state_eq, h.next_eq]
    exact hf.own_lt
  · rw [h.states_eq, getElem?_insert_state, h.state_eq, if_neg]
    · exact hf.own_none
    · rintro rfl
      exact nomatch h.other_eq.symm.trans hf.own_none
  · rw [h.removed_eq, List.mem_append, List.mem_singleton] at hid'
    rw [h.next_eq]
    obtain hid' | rfl := hid'
    · exact hf.removed_lt id' hid'
    · exact hf.own_lt
  · rw [h.removed_eq]
    exact List.mem_append_left _ hid'
  · rw [h.states_eq, getElem?_insert_state, if_neg]
    · exact hnone
    · rintro rfl
      exact nomatch h.other_eq.symm.trans hnone

theorem Tidy.visit {id : StateId} {s : State} (hf : f.Tidy) (hs : f.executor.states[id]? = some s) :
    Tidy ⟨{ f.executor with states := f.executor.states.erase id }, s⟩ := by
  obtain ⟨hname, hlt⟩ := hf.named id s hs
  refine ⟨fun id' s' hs' ↦ ?_, hname ▸ hlt, ?_, hf.removed_lt⟩
  · dsimp only at hs'
    rw [getElem?_erase_state] at hs'
    split at hs'
    · cases hs'
    · exact hf.named id' s' hs'
  · dsimp only
    rw [hname, getElem?_erase_state, if_pos rfl]

theorem Succeeds.visit {id : StateId} {s : State} (hf : f.Tidy) (hs : f.executor.states[id]? = some s)
    (h : Succeeds ⟨{ f.executor with states := f.executor.states.erase id }, s⟩ g) :
    f.Succeeds ⟨{ g.executor with states := g.executor.states.insert id g.state }, f.state⟩ := by
  obtain ⟨hname, hlt⟩ := hf.named id s hs
  have hne : id ≠ f.state.id := by
    rintro rfl
    exact nomatch hs.symm.trans hf.own_none
  have hold : ∀ id' < f.executor.nextStateId, f.executor.states[id']? = none →
      (g.executor.states.insert id g.state)[id']? = none := by
    intro id' hlt' hnone
    rw [getElem?_insert_state, if_neg]
    · refine h.old id' hlt' ?_
      dsimp only
      rw [getElem?_erase_state, hnone, ite_self]
    · rintro rfl
      exact nomatch hs.symm.trans hnone
  refine ⟨⟨fun id' s' hs' ↦ ?_, Nat.lt_of_lt_of_le hf.own_lt h.next_le, hold _ hf.own_lt hf.own_none,
    h.tidy.removed_lt⟩, rfl, h.config_eq, h.next_le, h.removed_sub, hold⟩
  dsimp only at hs'
  rw [getElem?_insert_state] at hs'
  split at hs'
  · rename_i heq
    obtain rfl := Option.some.inj hs'
    exact ⟨h.id_eq.trans (hname.trans heq), heq ▸ Nat.lt_of_lt_of_le hlt h.next_le⟩
  · exact h.tidy.named id' s' hs'

theorem Moves.succeeds (h : f.Moves I twins lost g) (hf : f.Tidy) : f.Succeeds g := by
  induction h with
  | own h => exact h.succeeds hf
  | trans _ _ ihf ihg =>
    have hf := ihf hf
    have hg := ihg hf.tidy
    exact ⟨hg.tidy, hg.id_eq.trans hf.id_eq, hg.config_eq.trans hf.config_eq, Nat.le_trans hf.next_le hg.next_le,
      fun id hid ↦ hg.removed_sub id (hf.removed_sub id hid),
      fun id hlt hnone ↦ hg.old id (Nat.lt_of_lt_of_le hlt hf.next_le) (hf.old id hlt hnone)⟩
  | @follow f g side rest _ h _ =>
    have hg : (f.withReplayPath rest).Succeeds g :=
      h.succeeds ⟨hf.named, hf.own_lt, hf.own_none, hf.removed_lt⟩
    exact ⟨⟨hg.tidy.named, hg.tidy.own_lt, hg.tidy.own_none, hg.tidy.removed_lt⟩, hg.id_eq,
      hg.config_eq, hg.next_le, hg.removed_sub, hg.old⟩
  | stray _ _ =>
    exact ⟨⟨hf.named, hf.own_lt, hf.own_none, hf.removed_lt⟩, rfl, rfl, Nat.le_refl _, fun _ ↦ id, fun _ _ ↦ id⟩
  | divide h => exact h.spread.succeeds hf
  | merge h => exact h.succeeds hf
  | visit hs _ ih => exact .visit hf hs (ih (hf.visit hs))

end Focus

/-- The states differ in neither name nor path nor constraints. -/
structure State.Alike (s t : State) : Prop where
  id_eq : t.id = s.id
  path_eq : t.path = s.path
  constraints_eq : t.constraints = s.constraints

/-- The machines differ in neither states nor reports nor what leads them. -/
structure Executor.Alike (e e' : Executor σ) : Prop where
  states_eq : e'.states = e.states
  next_eq : e'.nextStateId = e.nextStateId
  removed_eq : e'.removed = e.removed
  cases_eq : e'.cases = e.cases
  config_eq : e'.config = e.config
  replayPath_eq : e'.replayPath = e.replayPath
  seeds : e.seeds.isEmpty → e'.seeds.isEmpty

theorem State.Alike.refl (s : State) : s.Alike s := ⟨rfl, rfl, rfl⟩

theorem Executor.Alike.refl (e : Executor σ) : e.Alike e := ⟨rfl, rfl, rfl, rfl, rfl, rfl, id⟩

theorem Focus.Own.of_alike {f g : Focus σ} (he : f.executor.Alike g.executor) (hs : f.state.Alike g.state) :
    f.Own I g where
  id_eq := hs.id_eq
  part := ⟨fun hc ↦ hs.constraints_eq ▸ hc, .inr hs.path_eq⟩
  narrower _ ha := hs.constraints_eq ▸ ha
  states_eq id := by rw [he.states_eq]
  next_le := Nat.le_of_eq he.next_eq.symm
  removed _ hid := .inl (he.removed_eq ▸ hid)
  removed_sub _ hid := he.removed_eq ▸ hid
  cases _ hc := .inl (he.cases_eq ▸ hc)
  steady := ⟨he.config_eq, he.replayPath_eq, he.seeds⟩

theorem Focus.Own.refl (I : Trust) (f : Focus σ) : f.Own I f := .of_alike (.refl _) (.refl _)

theorem Focus.Moves.refl (f : Focus σ) : Moves I twins lost f f := .own (.refl I f)

/-- The machines do not differ in what is written down of their states either. -/
structure Executor.Quiet (e e' : Executor σ) : Prop extends e.Alike e' where
  added_eq : e'.added = e.added
  reported_eq : e'.reported = e.reported
  searcher_eq : e'.searcher = e.searcher
  seeds_eq : e'.seeds = e.seeds

theorem Executor.Quiet.refl (e : Executor σ) : e.Quiet e := ⟨.refl e, rfl, rfl, rfl, rfl⟩

theorem Focus.Writes.of_quiet {f g : Focus σ} (he : f.executor.Quiet g.executor)
    (hs : f.state.Alike g.state) : f.Writes [] [] [] [] g where
  id_eq := hs.id_eq
  held id := by simp [Has, hs.id_eq, he.states_eq]
  named_eq := rfl
  next_eq := he.next_eq
  added_eq := by simp [he.added_eq]
  removed_eq := by simp [he.removed_eq]
  gone_nodup := .nil
  gone := nofun
  cases_eq := by simp [he.cases_eq]
  reported_sub _ hp := he.reported_eq ▸ hp
  reported _ hp := .inl (he.reported_eq ▸ hp)
  searcher_eq := he.searcher_eq
  config_eq := he.config_eq
  seeds _ hid := .inl (he.seeds_eq ▸ hid)
  fit hfit := by
    rw [Executor.SeedsFit, he.seeds_eq, he.next_eq]
    exact hfit
  names hnames := by
    rw [Executor.Named, he.states_eq]
    exact hnames

/-- Work on the state alone, which is written down. -/
structure Focus.Solo (I : Trust) (f g : Focus σ) : Prop extends f.Own I g where
  booked : f.Booked g

namespace Focus.Solo

variable {f g h : Focus σ}

theorem trans (hf : f.Solo I g) (hg : g.Solo I h) : f.Solo I h :=
  ⟨hf.toOwn.trans hg.toOwn, hf.booked.trans hg.booked⟩

theorem of_quiet (he : f.executor.Quiet g.executor) (hs : f.state.Alike g.state) : f.Solo I g :=
  ⟨.of_alike he.toAlike hs, (Writes.of_quiet he hs).booked⟩

theorem refl (I : Trust) (f : Focus σ) : f.Solo I f := .of_quiet (.refl _) (.refl _)

end Focus.Solo

/-- What work can make of the machine and the state it works on, and what is written of that. -/
structure Focus.Makes (I : Trust) (twins lost : Prop) (f g : Focus σ) : Prop where
  moves : f.Moves I twins lost g
  booked : f.Booked g

namespace Focus

variable {f g h : Focus σ}

theorem Solo.makes (h : f.Solo I g) : f.Makes I twins lost g := ⟨.own h.toOwn, h.booked⟩

theorem Makes.refl (f : Focus σ) : f.Makes I twins lost f := (Solo.refl I f).makes

theorem Makes.mono (h : f.Makes I twins lost g) (hlost : lost → lost') : f.Makes I twins lost' g :=
  ⟨h.moves.mono hlost, h.booked⟩

theorem Makes.trans (hf : f.Makes I twins lost g) (hg : g.Makes I twins lost h) : f.Makes I twins lost h :=
  ⟨hf.moves.trans hg.moves, hf.booked.trans hg.booked⟩

theorem Makes.visit {id : StateId} {s : State} (ht : f.Tidy) (hs : f.executor.states[id]? = some s)
    (h : Makes I twins lost ⟨{ f.executor with states := f.executor.states.erase id }, s⟩ g) :
    f.Makes I twins lost ⟨{ g.executor with states := g.executor.states.insert id g.state }, f.state⟩ :=
  ⟨.visit hs h.moves, .visit hs (ht.named id s hs).1 h.booked⟩

end Focus

namespace Focus

variable {f : Focus σ} {cases : Array TestCase} {reported : List (Location × String)}

/-- The focus after the state ended, with what was written for that. -/
def ended (f : Focus σ) (solver : Solver σ) (statistics : Statistics) (cases : Array TestCase)
    (errors : List PathError) (reported : List (Location × String)) : Focus σ :=
  { f with executor := { f.executor with
      solver, statistics, cases, errors, reported, removed := f.executor.removed ++ [f.state.id] } }

theorem own_ended (solver : Solver σ) (statistics : Statistics) (errors : List PathError)
    (reported : List (Location × String))
    (hcases : ∀ c ∈ cases, c ∈ f.executor.cases ∨ c.path = f.state.path) :
    f.Own I (f.ended solver statistics cases errors reported) where
  id_eq := rfl
  part := .refl f
  narrower _ := id
  states_eq _ := rfl
  next_le := Nat.le_refl _
  removed id hid := by simpa [ended] using hid
  removed_sub _ hid := List.mem_append_left _ hid
  cases c hc := (hcases c hc).imp_right fun hpath ↦ .inr ⟨hpath, fun _ hgoing ↦
    hgoing (List.mem_append_right _ (List.mem_singleton_self _))⟩
  steady := ⟨rfl, rfl, id⟩

theorem writes_ended {new : List TestCase} (hgoing : f.Going) (solver : Solver σ) (statistics : Statistics)
    (errors : List PathError) (hcases : cases.toList = f.executor.cases.toList ++ new)
    (hsub : ∀ p ∈ f.executor.reported, p ∈ reported)
    (hreported : ∀ p ∈ reported, p ∈ f.executor.reported ∨
      ∃ c ∈ new, ∃ kind, c.termination = .error kind p.2) :
    f.Writes [] [] [f.state.id] new (f.ended solver statistics cases errors reported) where
  id_eq := rfl
  held id := by simp [Has, ended]
  named_eq := rfl
  next_eq := rfl
  added_eq := by simp [ended]
  removed_eq := rfl
  gone_nodup := by simp
  gone := List.forall_mem_singleton.2 ⟨hgoing, .inl rfl⟩
  cases_eq := hcases
  reported_sub := hsub
  reported := hreported
  searcher_eq := rfl
  config_eq := rfl
  seeds _ := .inl
  fit := id
  names := id

theorem solo_ended {solver : Solver σ} {testCase : TestCase} (hgoing : f.Going)
    (hstate : testCase.state = f.state.id) (hpath : testCase.path = f.state.path) (statistics : Statistics)
    (errors : List PathError) (hsub : ∀ p ∈ f.executor.reported, p ∈ reported)
    (hreported : ∀ p ∈ reported, p ∈ f.executor.reported ∨ ∃ kind, testCase.termination = .error kind p.2) :
    f.Solo I (f.ended solver statistics (f.executor.cases.push testCase) errors reported) where
  toOwn := own_ended solver statistics errors reported fun c hc ↦ by
    obtain hc | rfl := Array.mem_push.1 hc
    · exact .inl hc
    · exact .inr hpath
  booked _ := ⟨_, .reports hstate (writes_ended hgoing solver statistics errors (by simp) hsub fun p hp ↦
    (hreported p hp).imp_right fun h ↦ ⟨testCase, List.mem_singleton_self _, h⟩)⟩

/-- How an error ends the state, unless it has ended before. -/
inductive EndedBy (f : Focus σ) (error : PathError) : Focus σ → Prop
  | again : EndedBy f error f
  | reported {testCase : TestCase} {solver : Solver σ} {statistics : Statistics} {errors : List PathError}
      {reported : List (Location × String)} (hgoing : f.Going) (hstate : testCase.state = f.state.id)
      (hpath : testCase.path = f.state.path) (hsub : ∀ p ∈ f.executor.reported, p ∈ reported)
      (hreported : ∀ p ∈ reported, p ∈ f.executor.reported ∨ ∃ kind, testCase.termination = .error kind p.2) :
      EndedBy f error (f.ended solver statistics (f.executor.cases.push testCase) errors reported)
  | repeated (hgoing : f.Going) (hconfig : f.executor.config.emitAllErrors = false)
      (hreported : (error.location, error.payload.message) ∈ f.executor.reported) :
      EndedBy f error (f.ended f.executor.solver f.executor.statistics f.executor.cases f.executor.errors
        f.executor.reported)

end Focus

namespace Exec

/-! ## Work on one state -/

/-- However it ends, the work concerns its own state alone. If `quiet` holds the state does not end. -/
def Stays (I : Trust) (quiet : Prop) (x : Exec σ α) : Prop :=
  ∀ focus, x.Ends (fun _ ↦ True) focus fun _ f ↦
    focus.Solo I f ∧ (quiet → f.executor.removed = focus.executor.removed)

variable {quiet : Prop} {x : Exec σ α} {k : α → Exec σ β} {focus : Focus σ}

theorem stays_pure (a : α) : (pure a : Exec σ α).Stays I quiet := fun _ ↦
  ends_pure ⟨.refl I _, fun _ ↦ rfl⟩

theorem stays_throw (e : PathError) : (throw e : Exec σ α).Stays I quiet := fun _ ↦
  ends_throw ⟨.refl I _, fun _ ↦ rfl⟩

theorem stays_fail (e : ExecError) : (fail e : Exec σ α).Stays I quiet := fun _ ↦
  ends_fail ⟨.refl I _, fun _ ↦ rfl⟩

theorem stays_lift (c : Checked α) : (liftM c : Exec σ α).Stays I quiet := fun _ ↦
  ends_lift (ends_true_iff.2 fun _ _ ↦ ⟨.refl I _, fun _ ↦ rfl⟩)

theorem stays_executor : (executor : Exec σ _).Stays I quiet := fun _ ↦
  ends_executor ⟨.refl I _, fun _ ↦ rfl⟩

theorem stays_state : (state : Exec σ _).Stays I quiet := fun _ ↦ ends_state ⟨.refl I _, fun _ ↦ rfl⟩

theorem stays_ofExcept (r : Except PathError α) :
    (MonadExcept.ofExcept r : Exec σ α).Stays I quiet := fun _ ↦
  ends_ofExcept ⟨.refl I _, fun _ ↦ rfl⟩

theorem stays_bind (hx : x.Stays I quiet) (hk : ∀ a, (k a).Stays I quiet) :
    (x >>= k).Stays I quiet := fun focus ↦
  ends_bind (hx focus) (fun a f h ↦ (hk a f).mono fun _ _ h' ↦
    ⟨h.1.trans h'.1, fun hq ↦ (h'.2 hq).trans (h.2 hq)⟩) fun _ _ h ↦ h

theorem stays_fail_bind (e : ExecError) : (fail e >>= k).Stays I quiet := fun focus ↦
  ends_bind (P := fun r f ↦ (∀ a, r ≠ .ok a) ∧ f = focus) (ends_fail ⟨nofun, rfl⟩)
    (fun a _ h ↦ absurd rfl (h.1 a)) fun _ _ h ↦ h.2 ▸ ⟨.refl I _, fun _ ↦ rfl⟩

theorem stays_modifyExecutor {f : Executor σ → Executor σ} (h : ∀ e : Executor σ, e.Quiet (f e)) :
    (modifyExecutor f).Stays I quiet := fun _ ↦
  ends_modifyExecutor ⟨.of_quiet (h _) (.refl _), fun _ ↦ (h _).removed_eq⟩

theorem stays_set_bind {f : Focus σ} {k : PUnit → Exec σ β} (he : focus.executor.Quiet f.executor)
    (hs : focus.state.Alike f.state) (hk : (k ⟨⟩).Stays I quiet) :
    (set f >>= k).Ends (fun _ ↦ True) focus fun _ f' ↦
      focus.Solo I f' ∧ (quiet → f'.executor.removed = focus.executor.removed) :=
  ends_bind_ok rfl ((hk f).mono fun _ _ h ↦
    ⟨.trans (.of_quiet he hs) h.1, fun hq ↦ (h.2 hq).trans he.removed_eq⟩)

theorem stays_updateState {f : State → Checked State}
    (h : ∀ s, Checked.Ends (fun _ ↦ True) (f s) s.Alike) : (updateState f : Exec σ Unit).Stays I quiet :=
  fun focus ↦ ends_updateState ((h focus.state).mono fun _ hs ↦
    ⟨.of_quiet (.refl _) hs, fun _ ↦ rfl⟩)

theorem stays_draw (f : Rng → α × Rng) : (draw f : Exec σ α).Stays I quiet := fun _ ↦
  ends_draw ⟨.of_quiet ⟨⟨rfl, rfl, rfl, rfl, rfl, rfl, id⟩, rfl, rfl, rfl, rfl⟩ (.refl _), fun _ ↦ rfl⟩

theorem stays_answer (answer : Focus σ → Checked (α × Solver σ)) :
    (do
      let focus ← get
      let p ← answer focus
      set { focus with executor := { focus.executor with solver := p.2 } }
      return p.1 : Exec σ α).Stays I quiet := by
  intro focus
  refine ends_bind_ok rfl (ends_bind (P := fun _ f ↦ f = focus)
    (ends_lift (ends_true_iff.2 fun _ _ ↦ rfl)) ?_ ?_)
  · rintro p _ rfl
    exact stays_set_bind ⟨⟨rfl, rfl, rfl, rfl, rfl, rfl, id⟩, rfl, rfl, rfl, rfl⟩ (.refl _) (stays_pure _)
  · rintro _ _ rfl
    exact ⟨.refl I _, fun _ ↦ rfl⟩

theorem stays_ask (question : ConstraintSet → Ask σ α) : (ask question).Stays I quiet :=
  stays_answer fun f ↦ (question f.state.constraints).run.run f.executor.solver

theorem stays_query (question : ConstraintSet → Ask σ α) : (query question).Stays I quiet := by
  refine stays_bind (stays_ask question) fun r ↦ ?_
  split
  · exact stays_pure _
  · exact stays_fail _

theorem stays_mapM {γ : Type} {f : γ → Exec σ β} {l : List γ} (hf : ∀ x ∈ l, (f x).Stays I quiet) :
    (l.mapM f).Stays I quiet := by
  induction l with
  | nil => exact stays_pure _
  | cons x l ih =>
    rw [List.forall_mem_cons] at hf
    rw [List.mapM_cons]
    exact stays_bind hf.1 fun _ ↦ stays_bind (ih hf.2) fun _ ↦ stays_pure _

theorem stays_foldlM {γ : Type} {f : β → γ → Exec σ β} {l : List γ} {b : β}
    (hf : ∀ x ∈ l, ∀ b, (f b x).Stays I quiet) : (l.foldlM f b).Stays I quiet := by
  induction l generalizing b with
  | nil => exact stays_pure _
  | cons x l ih =>
    rw [List.forall_mem_cons] at hf
    rw [List.foldlM_cons]
    exact stays_bind (hf.1 b) fun _ ↦ ih hf.2

/-! ### Outcomes -/

theorem ends_emit_any (termination : Termination) (details : Option String) :
    (emit termination details).Ends (fun _ ↦ True) focus fun r f ↦ r = .ok () ∧ ∃ solver testCase statistics,
      (testCase.state = focus.state.id ∧ testCase.path = focus.state.path ∧
        testCase.termination = termination) ∧
      f = { focus with executor := { focus.executor with
        solver, statistics, cases := focus.executor.cases.push testCase } } := by
  have hsolution : (solution : Exec σ Solution).Ends (fun _ ↦ True) focus fun r f ↦
      (∃ solution, r = .ok solution) ∧ ∃ solver, f = focus.withSolver solver := by
    refine ends_bind_ok rfl (ends_bind (P := fun r f ↦ (∃ answer, r = .ok answer) ∧
      ∃ solver, f = focus.withSolver solver)
      (ends_ask_any (ends_true_iff.2 fun p _ ↦ ⟨⟨p.1, rfl⟩, p.2, rfl⟩)) (fun answer f h ↦ ?_)
        fun _ _ h ↦ ⟨?_, h.2⟩)
    · split <;> exact ends_pure ⟨⟨_, rfl⟩, h.2⟩
    · obtain ⟨⟨_, ⟨⟩⟩, -⟩ := h
  refine ends_bind hsolution (fun solution f h ↦ ?_) fun _ _ h ↦ ?_
  · obtain ⟨-, solver, rfl⟩ := h
    refine ends_bind_ok rfl (ends_bind_ok rfl ?_)
    refine ends_bind (P := fun r f ↦ (∃ trace, r = .ok trace) ∧ f = focus.withSolver solver)
      (ends_lift (ends_true_iff.2 fun _ _ ↦ ⟨⟨_, rfl⟩, rfl⟩)) ?_ fun _ _ h ↦ ?_
    · rintro trace _ ⟨-, rfl⟩
      exact ends_modifyExecutor ⟨rfl, solver, _, _, ⟨rfl, rfl, rfl⟩, rfl⟩
    · obtain ⟨⟨_, ⟨⟩⟩, -⟩ := h
  · obtain ⟨⟨_, ⟨⟩⟩, -⟩ := h

theorem ends_terminateWith (termination : Termination) (details : Option String) :
    (terminateWith termination details : Exec σ Unit).Ends (fun _ ↦ True) focus fun r f ↦
      r = .ok () ∧ (f = focus ∨ focus.Going ∧ ∃ solver statistics testCase,
        testCase.state = focus.state.id ∧ testCase.path = focus.state.path ∧
        f = focus.ended solver statistics (focus.executor.cases.push testCase) focus.executor.errors
          focus.executor.reported) := by
  refine ends_bind_ok rfl ?_
  split
  · exact ends_pure ⟨rfl, .inl rfl⟩
  · rename_i hremoved
    have hgoing : focus.Going := by simpa [Focus.Going] using hremoved
    refine ends_bind (ends_emit_any termination details) ?_ ?_
    · rintro _ f ⟨-, solver, testCase, statistics, ⟨hstate, hpath, -⟩, rfl⟩
      exact ends_terminate hgoing ⟨rfl, .inr ⟨hgoing, solver, statistics, testCase, hstate, hpath, rfl⟩⟩
    · rintro _ _ ⟨⟨⟩, -⟩

theorem stays_terminateWith (termination : Termination) (details : Option String) :
    (terminateWith termination details : Exec σ Unit).Stays I False := by
  refine fun focus ↦ (ends_terminateWith termination details).mono ?_
  rintro _ _ ⟨-, rfl | ⟨hgoing, solver, statistics, testCase, hstate, hpath, rfl⟩⟩
  · exact ⟨.refl I _, nofun⟩
  · exact ⟨Focus.solo_ended hgoing hstate hpath _ _ (fun _ ↦ id) fun _ ↦ .inl, nofun⟩

theorem ends_emit_error {reported : List (Location × String)} {message : String} {failure : PathError}
    (kind : ErrorKind) (error : PathError) (details : Option String) (hgoing : focus.Going)
    (hsub : ∀ p ∈ focus.executor.reported, p ∈ reported)
    (hreported : ∀ p ∈ reported, p ∈ focus.executor.reported ∨ p.2 = message) :
    (do
      emit (.error kind message) details
      modifyExecutor fun e ↦ { e with errors := e.errors ++ [error] }
      terminate : Exec σ Unit).Ends (fun _ ↦ True) { focus with executor := { focus.executor with reported } }
        fun r f ↦ r = .ok () ∧ focus.EndedBy failure f := by
  refine ends_bind (ends_emit_any _ details) ?_ ?_
  · rintro _ f ⟨-, solver, testCase, statistics, ⟨hstate, hpath, htermination⟩, rfl⟩
    refine ends_bind_ok rfl (ends_terminate hgoing ⟨rfl, .reported hgoing hstate hpath hsub fun p hp ↦ ?_⟩)
    refine (hreported p hp).imp_right fun heq ↦ ⟨kind, ?_⟩
    rw [heq, htermination]
  · rintro _ _ ⟨⟨⟩, -⟩

theorem ends_terminateOnError_any (error : PathError) (details : Option String) :
    (terminateOnError error details : Exec σ Unit).Ends (fun _ ↦ True) focus fun r f ↦
      r = .ok () ∧ focus.EndedBy error f := by
  refine ends_bind_ok rfl ?_
  split
  · exact ends_pure ⟨rfl, .again⟩
  rename_i hremoved
  have hgoing : focus.Going := by simpa [Focus.Going] using hremoved
  refine ends_bind_ok rfl ?_
  dsimp only
  split
  · rename_i hreported
    split
    · exact ends_emit_error _ error details hgoing (fun _ ↦ id) fun _ ↦ .inl
    · rename_i hconfig
      exact ends_terminate hgoing ⟨rfl, .repeated hgoing (by simpa using hconfig) (by simpa using hreported)⟩
  · refine ends_bind_ok rfl (ends_emit_error _ error details hgoing (fun _ ↦ List.mem_cons_of_mem _) fun p hp ↦ ?_)
    obtain rfl | hp := List.mem_cons.1 hp
    · exact .inr rfl
    · exact .inl hp

theorem stays_terminateOnError (error : PathError) (details : Option String) :
    (terminateOnError error details : Exec σ Unit).Stays I False := by
  refine fun focus ↦ (ends_terminateOnError_any error details).with_run.mono ?_
  rintro _ f ⟨⟨rfl, hfailed⟩, hrun⟩
  refine ⟨?_, nofun⟩
  cases hfailed with
  | again => exact .refl I focus
  | reported hgoing hstate hpath hsub hreported => exact Focus.solo_ended hgoing hstate hpath _ _ hsub hreported
  | repeated hgoing hconfig hreported =>
    exact ⟨Focus.own_ended _ _ _ _ fun _ ↦ .inl, fun _ ↦ ⟨_, .repeats hrun hconfig hreported
      (Focus.writes_ended hgoing _ _ _ (by simp) (fun _ ↦ id) fun _ ↦ .inl)⟩⟩

theorem stays_settle (error : PathError) : (settle error : Exec σ Unit).Stays I False := by
  unfold settle
  split
  · exact stays_throw error
  · split
    · exact stays_terminateWith _ _
    · exact stays_terminateOnError _ _

theorem stays_addressInfo (address : Expr) : (addressInfo address : Exec σ String).Stays I quiet := by
  have hnear (value : Nat) : (addressInfo.neighbours value : Exec σ String).Stays I quiet :=
    stays_bind stays_state fun _ ↦ stays_pure _
  unfold addressInfo
  dsimp only
  split
  · exact stays_bind (hnear _) fun _ ↦ stays_pure _
  · refine stays_bind (stays_ask _) fun r ↦ ?_
    split
    · exact stays_pure _
    · refine stays_bind (stays_ask _) fun r ↦ ?_
      split <;> exact stays_bind (stays_pure _) fun _ ↦ stays_bind (hnear _) fun _ ↦ stays_pure _

/-! ## Work on several states -/

/-- The path that is replayed does not fit the program. -/
def Strayed (r : Except PathError α) : Prop := ∃ e, r = .error e ∧ e.payload = .replayInvalidBranch

theorem not_strayed_ok {a : α} : ¬Strayed (.ok a : Except PathError α) := nofun

theorem Strayed.of_error {e : PathError} (h : Strayed (.error e : Except PathError α)) :
    Strayed (.error e : Except PathError β) := by
  obtain ⟨_, ⟨⟩, he⟩ := h
  exact ⟨e, rfl, he⟩

theorem Strayed.map {r : Except PathError α} {f : α → β} (h : Strayed r) : Strayed (r.map f) := by
  obtain ⟨e, rfl, he⟩ := h
  exact ⟨e, rfl, he⟩

/-- However it ends, the work makes what it can of the machine, which explores schedules only if there may
be twins, and loses a side of a path only where the path does not fit. If `needs` holds it takes a state
that has not ended, and if `gives` holds it leaves such a one. -/
def Goes (I : Trust) (twins needs gives : Prop) (x : Exec σ α) : Prop :=
  ∀ focus, focus.Sound I → focus.Tidy → (focus.executor.config.forkOnSchedule = true → twins) →
    (needs → focus.Going) → x.Ends (fun _ ↦ True) focus fun r f ↦
      focus.Makes I twins (Strayed r) f ∧ (gives → ∀ a, r = .ok a → f.Going)

variable {needs mid gives : Prop} {R : α → Prop}

theorem own_going {f g : Focus σ} (h : f.Own I g)
    (hremoved : g.executor.removed = f.executor.removed) (hf : f.Going) : g.Going := by
  rw [Focus.Going, h.id_eq, hremoved]
  exact hf

theorem Stays.goes (hx : x.Stays I True) : x.Goes I twins needs needs := fun focus _ _ _ hg ↦
  (hx focus).mono fun _ _ h ↦ ⟨h.1.makes, fun hn _ _ ↦ own_going h.1.toOwn (h.2 trivial) (hg hn)⟩

theorem Stays.ending (hx : x.Stays I False) : x.Goes I twins needs False := fun focus _ _ _ _ ↦
  (hx focus).mono fun _ _ h ↦ ⟨h.1.makes, nofun⟩

theorem Goes.mono {needs' gives' : Prop} (hx : x.Goes I twins needs gives) (hn : needs → needs')
    (hg : gives' → gives) : x.Goes I twins needs' gives' := fun focus hf ht hs hgoing ↦
  (hx focus hf ht hs fun h ↦ hgoing (hn h)).mono fun _ _ h ↦ ⟨h.1, fun h' ↦ h.2 (hg h')⟩

theorem goes_bind (hkeeps : x.Keeps I R) (hx : x.Goes I twins needs mid)
    (hk : ∀ a, R a → (k a).Goes I twins mid gives) : (x >>= k).Goes I twins needs gives :=
  fun focus hf ht hs hgoing ↦ by
    refine ends_bind ((hx focus hf ht hs hgoing).and (hkeeps focus hf)) (fun a f h ↦ ?_)
      fun _ _ h ↦ ⟨h.1.1.mono .of_error, nofun⟩
    have hsucc := h.1.1.moves.succeeds ht
    exact (hk a (h.2.2 a rfl) f h.2.1 hsucc.tidy (hsucc.config_eq ▸ hs) fun hm ↦ h.1.2 hm a rfl).mono
      fun _ _ h' ↦ ⟨(h.1.1.mono fun h ↦ (not_strayed_ok h).elim).trans h'.1, h'.2⟩

theorem goes_forIn {γ : Type} {f : γ → PUnit → Exec σ (ForInStep PUnit)} {l : List γ}
    (hkeeps : ∀ x ∈ l, (f x ⟨⟩).Keeps I (· = .yield ⟨⟩))
    (hf : ∀ x ∈ l, (f x ⟨⟩).Goes I twins False False) :
    (forIn l ⟨⟩ f : Exec σ PUnit).Goes I twins False False := by
  induction l with
  | nil => exact (stays_pure _).goes
  | cons x l ih =>
    rw [List.forall_mem_cons] at hf hkeeps
    rw [List.forIn_cons]
    refine goes_bind hkeeps.1 hf.1 ?_
    rintro _ rfl
    exact ih hkeeps.2 hf.2

theorem goes_mapM {γ : Type} {f : γ → Exec σ β} {l : List γ} (hkeeps : ∀ x ∈ l, (f x).Keeps I fun _ ↦ True)
    (hf : ∀ x ∈ l, (f x).Goes I twins needs needs) : (l.mapM f).Goes I twins needs needs := by
  induction l with
  | nil => exact (stays_pure _).goes
  | cons x l ih =>
    rw [List.forall_mem_cons] at hf hkeeps
    rw [List.mapM_cons]
    refine goes_bind hkeeps.1 hf.1 fun _ _ ↦ ?_
    exact goes_bind (keeps_mapM hkeeps.2) (ih hkeeps.2 hf.2) fun _ _ ↦ (stays_pure _).goes

theorem goes_visit (id : StateId) (hx : x.Goes I twins False False) :
    (visit id x).Goes I twins False False := fun _ hf ht hschedule _ ↦
  ends_visit (fun _ ↦ ⟨.refl _, nofun⟩) fun s hs ↦
    (hx _ ⟨hf.executor.erase id, hf.executor.states id s hs⟩ (ht.visit hs) hschedule nofun).mono
      fun _ _ h ↦ ⟨(Focus.Makes.visit ht hs h.1).mono .map, nofun⟩

theorem ends_settle_makes {e : PathError} {f g : Focus σ}
    (h : f.Makes I twins (Strayed (.error e : Except PathError α)) g) :
    (settle e : Exec σ Unit).Ends (fun _ ↦ True) g fun r g' ↦ f.Makes I twins (Strayed r) g' := by
  by_cases he : e.payload.isFatal = true
  · unfold settle
    rw [if_pos he]
    exact ends_throw (h.mono .of_error)
  · have hsettle : (settle e : Exec σ Unit).Stays I False := stays_settle e
    refine (hsettle g).mono fun _ _ h' ↦ (h.mono ?_).trans h'.1.makes
    rintro ⟨_, ⟨⟩, he'⟩
    exact (he (he' ▸ rfl)).elim

theorem goes_settling (hkeeps : x.Keeps I R) (hx : x.Goes I twins True False) :
    (settling x).Goes I twins False False := fun focus hf ht hs _ ↦
  ends_settling (fun _ ↦ ⟨.refl _, nofun⟩) fun hgoing ↦ by
    have hgoing : focus.Going := by simpa [Focus.Going] using hgoing
    refine ((hx focus hf ht hs fun _ ↦ hgoing).and (hkeeps focus hf)).mono fun r f h ↦ ?_
    cases r with
    | ok a => exact ⟨h.1.1.mono fun h ↦ (not_strayed_ok h).elim, nofun⟩
    | error e =>
      refine (ends_settle_makes h.1.1).mono fun r f' h' ↦ ?_
      cases r with
      | ok _ => exact ⟨h'.mono fun h ↦ (not_strayed_ok h).elim, nofun⟩
      | error _ => exact ⟨h'.mono .of_error, nofun⟩

theorem goes_onBranch (branch : Branch) (hkeeps : x.Keeps I R) (hx : x.Goes I twins True False) :
    (onBranch branch x).Goes I twins False False := by
  cases branch with
  | current => exact goes_settling hkeeps hx
  | forked id =>
    exact goes_bind (keeps_visit id (keeps_settling hkeeps)) (goes_visit id (goes_settling hkeeps hx))
      fun _ _ ↦ (stays_pure _).goes

theorem goes_onSide (branch : Option Branch) {x : Exec σ Unit} (hkeeps : x.Keeps I fun _ ↦ True)
    (hx : x.Goes I twins True False) : (onSide branch x).Goes I twins False False := by
  cases branch with
  | none => exact (stays_pure _).goes
  | some branch =>
    exact goes_bind (keeps_onBranch branch hkeeps) (goes_onBranch branch hkeeps hx) fun _ _ ↦
      (stays_pure _).goes

end Exec

end Symex
