import Symex.Proofs.Heap.Reallocations
import Symex.Proofs.Lineage.Divisions

namespace Symex

open Checked

variable {σ α β : Type} {I : Trust} {p condition : Expr}

def TestCase.Early (t : TestCase) : Prop := ∃ reason, t.termination = .early reason

namespace Focus

variable {f f' g h : Focus σ} {b : Branch} {s child : State}

/-! ## Work without errors -/

/-- Nothing ended or came up, and the state has the data that it had. -/
structure Lasts (f g : Focus σ) : Prop where
  id_eq : g.state.id = f.state.id
  data : f.state.SameData g.state
  states_eq : g.executor.states = f.executor.states
  next_eq : g.executor.nextStateId = f.executor.nextStateId
  cases_eq : g.executor.cases = f.executor.cases
  removed_eq : g.executor.removed = f.executor.removed

theorem Lasts.refl (f : Focus σ) : f.Lasts f := ⟨rfl, .refl _, rfl, rfl, rfl, rfl⟩

theorem Lasts.trans (hf : f.Lasts g) (hg : g.Lasts h) : f.Lasts h :=
  ⟨hg.id_eq.trans hf.id_eq, hf.data.trans hg.data, hg.states_eq.trans hf.states_eq, hg.next_eq.trans hf.next_eq,
    hg.cases_eq.trans hf.cases_eq, hg.removed_eq.trans hf.removed_eq⟩

/-- If anything ended, it is the state, which has the data that it had. -/
structure Closes (f g : Focus σ) : Prop where
  id_eq : g.state.id = f.state.id
  data : f.state.SameData g.state
  states_eq : g.executor.states = f.executor.states
  next_eq : g.executor.nextStateId = f.executor.nextStateId
  cases : ∃ new, g.executor.cases.toList = f.executor.cases.toList ++ new ∧ ∀ t ∈ new, t.state = f.state.id
  removed : ∀ id ∈ g.executor.removed, id ∈ f.executor.removed ∨ id = f.state.id

theorem Lasts.closes (h : f.Lasts g) : f.Closes g :=
  ⟨h.id_eq, h.data, h.states_eq, h.next_eq, ⟨[], by rw [h.cases_eq, List.append_nil], nofun⟩,
    fun _ hid ↦ .inl (h.removed_eq ▸ hid)⟩

theorem Closes.trans (hf : f.Closes g) (hg : g.Closes h) : f.Closes h := by
  obtain ⟨new, hnew, hown⟩ := hf.cases
  obtain ⟨new', hnew', hown'⟩ := hg.cases
  refine ⟨hg.id_eq.trans hf.id_eq, hf.data.trans hg.data, hg.states_eq.trans hf.states_eq,
    hg.next_eq.trans hf.next_eq, ⟨new ++ new', by rw [hnew', hnew, List.append_assoc], ?_⟩, fun id hid ↦ ?_⟩
  · exact List.forall_mem_append.2 ⟨hown, fun t ht ↦ (hown' t ht).trans hf.id_eq⟩
  · exact (hg.removed id hid).elim (hf.removed id) fun hid ↦ .inr (hid.trans hf.id_eq)

/-- From `f` to `g` no state ended but by being given up, and there is a test case for each of them. -/
def GivenUp (f g : Focus σ) : Prop :=
  ∃ new, g.executor.cases.toList = f.executor.cases.toList ++ new ∧ (∀ t ∈ new, t.Early) ∧
    ∀ id ∈ g.executor.removed, id ∈ f.executor.removed ∨ ∃ t ∈ new, t.state = id

theorem GivenUp.refl (f : Focus σ) : f.GivenUp f := ⟨[], by simp, nofun, fun _ ↦ .inl⟩

theorem GivenUp.trans (hf : f.GivenUp g) (hg : g.GivenUp h) : f.GivenUp h := by
  obtain ⟨new, hcases, hearly, hremoved⟩ := hf
  obtain ⟨new', hcases', hearly', hremoved'⟩ := hg
  refine ⟨new ++ new', by rw [hcases', hcases, List.append_assoc], List.forall_mem_append.2 ⟨hearly, hearly'⟩,
    fun id hid ↦ ?_⟩
  obtain hid | ⟨t, ht, htold⟩ := hremoved' id hid
  · obtain hid | ⟨t, ht, htold⟩ := hremoved id hid
    · exact .inl hid
    · exact .inr ⟨t, List.mem_append_left _ ht, htold⟩
  · exact .inr ⟨t, List.mem_append_right _ ht, htold⟩

/-- What came up from `f` to `g` are copies of the state, and no other state ended. -/
structure Multiplies (f g : Focus σ) : Prop where
  id_eq : g.state.id = f.state.id
  data : f.state.SameData g.state
  next_le : f.executor.nextStateId ≤ g.executor.nextStateId
  old : ∀ id < f.executor.nextStateId, g.executor.states[id]? = f.executor.states[id]?
  copies : ∀ id ≥ f.executor.nextStateId, ∀ s, g.executor.states[id]? = some s →
    (s.id = id ∧ id < g.executor.nextStateId) ∧ f.state.SameData s
  removed : ∀ id ∈ g.executor.removed, id ∈ f.executor.removed ∨ id = f.state.id ∨
    f.executor.nextStateId ≤ id ∧ id < g.executor.nextStateId

/-- From `f` to `g` nothing was reported, and what came up are copies of the state. -/
structure Idles (f g : Focus σ) : Prop extends f.Multiplies g where
  givenUp : f.GivenUp g

theorem Closes.multiplies (h : f.Closes g) (hf : f.Tidy) : f.Multiplies g where
  id_eq := h.id_eq
  data := h.data
  next_le := Nat.le_of_eq h.next_eq.symm
  old id _ := by rw [h.states_eq]
  copies id hid s hs := by
    rw [h.states_eq, hf.none id hid] at hs
    cases hs
  removed id hid := (h.removed id hid).imp_right .inl

theorem Lasts.idles (h : f.Lasts g) (hf : f.Tidy) : f.Idles g where
  toMultiplies := h.closes.multiplies hf
  givenUp := ⟨[], by rw [h.cases_eq, List.append_nil], nofun, fun id hid ↦ .inl (h.removed_eq ▸ hid)⟩

theorem Multiplies.trans (hf : f.Multiplies g) (hg : g.Multiplies h) : f.Multiplies h where
  id_eq := hg.id_eq.trans hf.id_eq
  data := hf.data.trans hg.data
  next_le := Nat.le_trans hf.next_le hg.next_le
  old id hid := (hg.old id (Nat.lt_of_lt_of_le hid hf.next_le)).trans (hf.old id hid)
  copies id hid s hs := by
    by_cases hlt : id < g.executor.nextStateId
    · obtain ⟨⟨hname, -⟩, hdata⟩ := hf.copies id hid s (hg.old id hlt ▸ hs)
      exact ⟨⟨hname, Nat.lt_of_lt_of_le hlt hg.next_le⟩, hdata⟩
    · obtain ⟨hname, hdata⟩ := hg.copies id (Nat.le_of_not_lt hlt) s hs
      exact ⟨hname, hf.data.trans hdata⟩
  removed id hid := by
    obtain hid | rfl | hid := hg.removed id hid
    · exact (hf.removed id hid).imp_right fun h ↦ h.imp_right fun h ↦ ⟨h.1, Nat.lt_of_lt_of_le h.2 hg.next_le⟩
    · exact .inr (.inl hf.id_eq)
    · exact .inr (.inr ⟨Nat.le_trans hf.next_le hid.1, hid.2⟩)

theorem Idles.trans (hf : f.Idles g) (hg : g.Idles h) : f.Idles h :=
  ⟨hf.toMultiplies.trans hg.toMultiplies, hf.givenUp.trans hg.givenUp⟩

theorem Multiplies.tidy (h : f.Multiplies g) (hf : f.Tidy) : g.Tidy := by
  have hown : g.state.id < f.executor.nextStateId := h.id_eq ▸ hf.own_lt
  refine ⟨fun id s hs ↦ ?_, Nat.lt_of_lt_of_le hown h.next_le, ?_, fun id hid ↦ ?_⟩
  · by_cases hlt : id < f.executor.nextStateId
    · obtain ⟨hname, -⟩ := hf.named id s (h.old id hlt ▸ hs)
      exact ⟨hname, Nat.lt_of_lt_of_le hlt h.next_le⟩
    · exact (h.copies id (Nat.le_of_not_lt hlt) s hs).1
  · rw [h.old _ hown, h.id_eq]
    exact hf.own_none
  · obtain hid | rfl | hid := h.removed id hid
    · exact Nat.lt_of_lt_of_le (hf.removed_lt id hid) h.next_le
    · exact Nat.lt_of_lt_of_le hf.own_lt h.next_le
    · exact hid.2

theorem Idles.insert (h : f.Idles g) (hdata : f.state.SameData child)
    (hid : f.executor.nextStateId ≤ child.id ∧ child.id < g.executor.nextStateId) :
    f.Idles ⟨{ g.executor with states := g.executor.states.insert child.id child }, g.state⟩ := by
  refine ⟨⟨h.id_eq, h.data, h.next_le, fun id hlt ↦ ?_, fun id hge s hs ↦ ?_, h.removed⟩, h.givenUp⟩
  · dsimp only
    rw [getElem?_insert_state, if_neg fun heq : child.id = id ↦ Nat.not_lt.2 hid.1 (heq ▸ hlt)]
    exact h.old id hlt
  · dsimp only at hs ⊢
    rw [getElem?_insert_state] at hs
    split at hs
    · obtain rfl := Option.some.inj hs
      exact ⟨⟨‹_›, ‹child.id = id› ▸ hid.2⟩, hdata⟩
    · exact h.copies id hge s hs

theorem Multiplies.back (hf : f.Multiplies g) (hb : f.Result g b) (hs : g.stateAt? b = some s)
    {g' : Focus σ} (h : (g.view b s).Multiplies g') : f.Multiplies (g.back b g') := by
  cases b with
  | current =>
    obtain rfl := Option.some.inj hs
    exact hf.trans h
  | forked id =>
    obtain ⟨⟨hname, -⟩, hdata⟩ := hf.copies id hb.1 s hs
    have hne : ∀ {id'}, id' < f.executor.nextStateId → id ≠ id' := fun hlt heq ↦ Nat.not_lt.2 hb.1 (heq ▸ hlt)
    have hold : ∀ id' < g.executor.nextStateId, id ≠ id' → g'.executor.states[id']? = g.executor.states[id']? :=
      fun id' hlt hne ↦ (h.old id' hlt).trans ((getElem?_erase_state ..).trans (if_neg hne))
    refine ⟨hf.id_eq, hf.data, Nat.le_trans hf.next_le h.next_le, fun id' hlt ↦ ?_, fun id' hge s' hs' ↦ ?_,
      fun id' hid ↦ ?_⟩
    · refine (getElem?_insert_state ..).trans ((if_neg (hne hlt)).trans ?_)
      exact (hold id' (Nat.lt_of_lt_of_le hlt hf.next_le) (hne hlt)).trans (hf.old id' hlt)
    · dsimp only [Focus.back] at hs' ⊢
      rw [getElem?_insert_state] at hs'
      split at hs'
      · rename_i heq
        obtain rfl := Option.some.inj hs'
        exact ⟨⟨h.id_eq.trans (hname.trans heq), heq ▸ Nat.lt_of_lt_of_le hb.2 h.next_le⟩, hdata.trans h.data⟩
      · by_cases hlt : id' < g.executor.nextStateId
        · obtain ⟨⟨hname', -⟩, hdata'⟩ := hf.copies id' hge s' (hold id' hlt ‹_› ▸ hs')
          exact ⟨⟨hname', Nat.lt_of_lt_of_le hlt h.next_le⟩, hdata'⟩
        · obtain ⟨hname', hdata'⟩ := h.copies id' (Nat.le_of_not_lt hlt) s' hs'
          exact ⟨hname', hdata.trans hdata'⟩
    · obtain hid | heq | hid := h.removed id' hid
      · refine (hf.removed id' hid).imp_right fun h' ↦ h'.imp_right fun h' ↦ ?_
        exact ⟨h'.1, Nat.lt_of_lt_of_le h'.2 h.next_le⟩
      · obtain rfl : id' = id := heq.trans hname
        exact .inr (.inr ⟨hb.1, Nat.lt_of_lt_of_le hb.2 h.next_le⟩)
      · exact .inr (.inr ⟨Nat.le_trans hf.next_le hid.1, hid.2⟩)

theorem Idles.back (hf : f.Idles g) (hb : f.Result g b) (hs : g.stateAt? b = some s)
    {g' : Focus σ} (h : (g.view b s).Idles g') : f.Idles (g.back b g') :=
  ⟨hf.toMultiplies.back hb hs h.toMultiplies, hf.givenUp.trans h.givenUp⟩

theorem Multiplies.named (h : f.Multiplies g) (hb : f.Result g b) (hs : g.stateAt? b = some s) :
    s.id = b.idFrom f.state.id := by
  cases b with
  | current => exact Option.some.inj hs ▸ h.id_eq
  | forked id => exact (h.copies id hb.1 s hs).1.1

theorem Multiplies.dataAt (h : f.Multiplies g) (hb : f.Result g b) (hs : g.stateAt? b = some s) :
    f.state.SameData s := by
  cases b with
  | current => exact Option.some.inj hs ▸ h.data
  | forked id => exact (h.copies id hb.1 s hs).2

theorem Multiplies.not_removed (h : f.Multiplies g) (hgoing : f.Going) (hf : f.Tidy) (hb : f.Result g b)
    (hs : g.stateAt? b = some s) : s.id ∉ f.executor.removed := by
  rw [h.named hb hs]
  cases b with
  | current => exact hgoing
  | forked id => exact fun hid ↦ Nat.not_lt.2 hb.1 (hf.removed_lt id hid)

theorem Multiplies.stateAt?_back {b' : Branch} (h : (g.view b s).Multiplies f') (hne : b' ≠ b) (hb' : g.Given b') :
    (g.back b f').stateAt? b' = g.stateAt? b' := by
  cases b with
  | current =>
    cases b' with
    | current => exact (hne rfl).elim
    | forked id => exact h.old id hb'
  | forked id =>
    cases b' with
    | current => rfl
    | forked id' =>
      have hid : id ≠ id' := fun heq ↦ hne (by rw [heq])
      rw [stateAt?_back_forked hne.symm, h.old id' hb']
      exact (getElem?_erase_state ..).trans (if_neg hid)

theorem stateAt?_back_relativeTo {inner : Branch} (hb : g.Given b) (hinner : g.Fresh inner) :
    (g.back b f').stateAt? (inner.relativeTo b) = f'.stateAt? inner := by
  cases inner with
  | current => exact stateAt?_back ..
  | forked id =>
    refine stateAt?_back_forked ?_
    rintro rfl
    exact Nat.not_lt.2 (hinner id rfl) hb

end Focus

namespace Exec

variable {f g : Focus σ} {x : Exec σ α} {k : α → Exec σ β}

/-- However it ends, the work lets nothing end or come up, and its error is that the state is given up. -/
def Lasting (x : Exec σ α) : Prop :=
  ∀ f : Focus σ, x.Ends (fun _ ↦ True) f fun r g ↦ f.Lasts g ∧ ∀ e, r = .error e → e.payload.kind = .early

theorem lasting_pure (a : α) : (pure a : Exec σ α).Lasting := fun f ↦ ends_pure ⟨.refl f, nofun⟩

theorem lasting_bind (hx : x.Lasting) (hk : ∀ a, (k a).Lasting) : (x >>= k).Lasting := fun f ↦
  ends_bind (hx f) (fun a g h ↦ (hk a g).mono fun _ _ h' ↦ ⟨h.1.trans h'.1, h'.2⟩) fun e _ h ↦
    ⟨h.1, fun _ he ↦ h.2 _ (by cases he; rfl)⟩

theorem lasting_state : (state : Exec σ _).Lasting := fun f ↦ ends_state ⟨.refl f, nofun⟩

theorem lasting_executor : (executor : Exec σ _).Lasting := fun f ↦ ends_executor ⟨.refl f, nofun⟩

theorem lasting_seeds? : (seeds? : Exec σ _).Lasting := fun f ↦ ends_bind_ok rfl (ends_pure ⟨.refl f, nofun⟩)

theorem lasting_draw (d : Rng → α × Rng) : (draw d : Exec σ α).Lasting := fun _ ↦
  ends_draw ⟨⟨rfl, .refl _, rfl, rfl, rfl, rfl⟩, nofun⟩

theorem lasting_ask (question : ConstraintSet → Ask σ α) : (ask question).Lasting := fun _ ↦
  ends_ask_any (ends_true_iff.2 fun _ _ ↦ ⟨⟨rfl, .refl _, rfl, rfl, rfl, rfl⟩, nofun⟩)

theorem lasting_query (question : ConstraintSet → Ask σ α) : (query question).Lasting := by
  refine lasting_bind (lasting_ask question) fun r ↦ ?_
  split
  · exact lasting_pure _
  · exact fun f ↦ ends_fail ⟨.refl f, by rintro _ ⟨⟩; rfl⟩

theorem lasting_setSeeds (id : StateId) (seeds : List Seed) : (setSeeds id seeds : Exec σ Unit).Lasting := fun _ ↦
  ends_modifyExecutor ⟨⟨rfl, .refl _, rfl, rfl, rfl, rfl⟩, nofun⟩

theorem lasting_addConstraint (condition : Expr) : (addConstraint condition : Exec σ Unit).Lasting := by
  refine lasting_bind (fun f ↦ ends_updateState (ends_true_iff.2 fun s hs ↦ ?_)) fun _ ↦
    lasting_bind lasting_seeds? fun o ↦ ?_
  · obtain ⟨c, -, hs⟩ := bind_eq_ok.1 hs
    obtain rfl := pure_eq_ok.1 hs
    exact ⟨⟨rfl, ⟨rfl, rfl, rfl, rfl, rfl, rfl, rfl, rfl⟩, rfl, rfl, rfl, rfl⟩, nofun⟩
  · split
    · split
      · exact lasting_pure _
      · refine lasting_bind lasting_state fun s ↦ lasting_bind (lasting_query _) fun o ↦ ?_
        split
        · exact lasting_setSeeds _ _
        · exact lasting_pure _
    · exact lasting_pure _

theorem lasting_takeSide (condition : Expr) (side : Bool) : (takeSide condition side : Exec σ _).Lasting :=
  lasting_bind (lasting_addConstraint _) fun _ ↦ lasting_pure _

theorem lasting_restrict (condition : Expr) (v : Validity) : (restrict condition true v : Exec σ _).Lasting := by
  refine lasting_bind lasting_executor fun e ↦ lasting_bind lasting_seeds? fun seeds ↦ ?_
  rw [if_neg (by simp)]
  split
  · split
    · refine lasting_bind lasting_state fun s ↦ ?_
      split
      · unfold followSeeds
        dsimp only
        split
        · exact lasting_takeSide _ _
        · exact lasting_pure _
      · exact lasting_pure _
    · refine lasting_bind (fun f ↦ ends_bind_ok rfl (ends_pure ⟨.refl f, nofun⟩)) fun b ↦ ?_
      split
      · exact lasting_bind (lasting_draw _) fun _ ↦ lasting_takeSide _ _
      · exact lasting_pure _
  · exact lasting_pure _

theorem lasting_addressInfo (address : Expr) : (addressInfo address : Exec σ String).Lasting := by
  have hnear (value : Nat) : (addressInfo.neighbours value : Exec σ String).Lasting :=
    lasting_bind lasting_state fun _ ↦ lasting_pure _
  unfold addressInfo
  dsimp only
  split
  · exact lasting_bind (hnear _) fun _ ↦ lasting_pure _
  · refine lasting_bind (lasting_ask _) fun r ↦ ?_
    split
    · exact lasting_pure _
    · refine lasting_bind (lasting_ask _) fun r ↦ ?_
      split <;> exact lasting_bind (lasting_pure _) fun _ ↦ lasting_bind (hnear _) fun _ ↦ lasting_pure _

/-! ## Forks -/

/-- How a fork ends: with sides, each of which is there and goes on, or with an error for which the state is to be
given up. -/
def Forks (f : Focus σ) : Except PathError Sides → Focus σ → Prop
  | .ok sides, g => f.Idles g ∧ ∀ b, sides.1 = some b ∨ sides.2 = some b →
      g.executor.removed = f.executor.removed ∧ ∃ s, g.stateAt? b = some s
  | .error e, g => f.Idles g ∧ e.payload.kind = .early

theorem ends_terminateEarly_closes (reason : String) (f : Focus σ) :
    (terminateEarly reason).Ends (fun _ ↦ True) f fun r g ↦ r = .ok () ∧ f.Closes g ∧ f.GivenUp g := by
  refine ends_bind_ok rfl ?_
  split
  · exact ends_pure ⟨rfl, (Focus.Lasts.refl f).closes, .refl f⟩
  · rename_i hremoved
    refine ends_bind (ends_emit_any _ _) ?_ (by rintro _ _ ⟨⟨⟩, -⟩)
    rintro _ _ ⟨-, solver, t, statistics, ⟨hstate, -, htermination⟩, rfl⟩
    have hended : ∀ id ∈ f.executor.removed ++ [f.state.id], id ∈ f.executor.removed ∨ id = f.state.id := fun id hid ↦
      (List.mem_append.1 hid).imp_right List.mem_singleton.1
    refine ends_terminate (by simpa using hremoved) ⟨rfl, ⟨rfl, .refl _, rfl, rfl, ⟨[t], by simp, ?_⟩, hended⟩,
      [t], by simp, ?_, fun id hid ↦ (hended id hid).imp_right fun heq ↦ ⟨t, by simp, hstate.trans heq.symm⟩⟩
    · simpa using hstate
    · simpa using ⟨reason, htermination⟩

theorem ends_terminateEarly_idles (hf : f.Tidy) (reason : String) :
    (terminateEarly reason).Ends (fun _ ↦ True) f fun r g ↦ r = .ok () ∧ f.Idles g :=
  (ends_terminateEarly_closes reason f).mono fun _ _ h ↦ ⟨h.1, h.2.1.multiplies hf, h.2.2⟩

/-- A copy is at hand, which is not live yet. -/
structure Twinned (f g : Focus σ) (child : State) : Prop where
  idles : f.Idles g
  data : f.state.SameData child
  id_eq : child.id = f.executor.nextStateId
  id_lt : child.id < g.executor.nextStateId
  removed_eq : g.executor.removed = f.executor.removed

theorem ends_spawn_twinned (hf : f.Tidy) : (spawn : Exec σ State).Ends (fun _ ↦ True) f fun r g ↦
    ∃ child, r = .ok child ∧ Twinned f g child := by
  have htwin : ∀ (tree : ProcessTree) (left right : Option NodeId), Twinned f
      ⟨{ f.executor with
          nextStateId := f.executor.nextStateId + 1
          added := f.executor.added ++ [f.executor.nextStateId], tree },
        { (f.state.branch f.executor.nextStateId).1 with node := left }⟩
      { (f.state.branch f.executor.nextStateId).2 with node := right } := by
    intro tree left right
    refine ⟨⟨⟨rfl, ⟨rfl, rfl, rfl, rfl, rfl, rfl, rfl, rfl⟩, Nat.le_succ _, fun _ _ ↦ rfl, fun id hid s hs ↦ ?_,
      fun _ ↦ .inl⟩, [], by simp, nofun, fun _ ↦ .inl⟩, ⟨rfl, rfl, rfl, rfl, rfl, rfl, rfl, rfl⟩, rfl,
      Nat.lt_succ_self _, rfl⟩
    exact nomatch (hf.none id hid).symm.trans hs
  refine ends_bind_ok rfl ?_
  dsimp only
  split
  · exact ends_bind_ok rfl (ends_pure ⟨_, rfl, htwin _ _ _⟩)
  · refine ends_bind (P := fun r g ↦ (∃ p, r = .ok p) ∧ g = f)
      (ends_lift (ends_true_iff.2 fun p _ ↦ ⟨⟨p, rfl⟩, rfl⟩)) ?_ fun _ _ h ↦ (nomatch h.1)
    rintro ⟨⟨left, right⟩, tree⟩ _ ⟨-, rfl⟩
    exact ends_bind_ok rfl (ends_pure ⟨_, rfl, htwin _ _ _⟩)

theorem Twinned.lasts {child : State} {h : Focus σ} (hg : Twinned f g child) (hf : f.Tidy) (hh : g.Lasts h) :
    Twinned f h child :=
  ⟨hg.idles.trans (hh.idles (hg.idles.tidy hf)), hg.data, hg.id_eq, hh.next_eq ▸ hg.id_lt,
    hh.removed_eq.trans hg.removed_eq⟩

theorem ends_insertSide_forks {child : State} (hf : f.Tidy) (hg : Twinned f g child) :
    (do
      let maxDepth := (← executor).config.maxDepth
      if maxDepth ≠ 0 ∧ maxDepth ≤ (← state).depth then
        terminateEarly "max-depth exceeded"
        insertState child
        let _ ← visit child.id (terminateEarly "max-depth exceeded")
        return (none, none)
      insertState child
      return (some .current, some (.forked child.id)) : Exec σ Sides).Ends (fun _ ↦ True) g (Forks f) := by
  have hge : f.executor.nextStateId ≤ child.id := Nat.le_of_eq hg.id_eq.symm
  refine ends_bind_ok rfl (ends_bind_ok rfl ?_)
  split
  · refine ends_bind (ends_terminateEarly_idles (hg.idles.tidy hf) _) ?_ (by rintro _ _ ⟨⟨⟩, -⟩)
    rintro _ g₁ ⟨-, h₁⟩
    have hlt : child.id < g₁.executor.nextStateId := Nat.lt_of_lt_of_le hg.id_lt h₁.next_le
    have hinserted := (hg.idles.trans h₁).insert hg.data ⟨hge, hlt⟩
    refine ends_bind_ok rfl (ends_bind (P := fun r h ↦ (∃ o, r = .ok o) ∧ f.Idles h) (ends_visit (fun hnone ↦ ?_)
      fun s hs ↦ ?_) (fun _ _ h ↦ ends_pure ⟨h.2, by simp⟩) fun _ _ h ↦ (nomatch h.1))
    · exact nomatch Std.TreeMap.getElem?_insert_self.symm.trans hnone
    · refine (ends_terminateEarly_idles ((hinserted.tidy hf).visit hs) _).mono ?_
      rintro _ h ⟨rfl, hh⟩
      exact ⟨⟨_, rfl⟩, hinserted.back (b := .forked child.id) ⟨hge, hlt⟩ hs hh⟩
  · refine ends_bind_ok rfl (ends_pure ⟨hg.idles.insert hg.data ⟨hge, hg.id_lt⟩, ?_⟩)
    rintro b (⟨⟨⟩⟩ | ⟨⟨⟩⟩)
    · exact ⟨hg.removed_eq, _, rfl⟩
    · exact ⟨hg.removed_eq, child, Std.TreeMap.getElem?_insert_self⟩

theorem ends_bothSides_forks {child : State} (hf : f.Tidy) (hg : Twinned f g child) :
    (do
      recordSide true true
      addConstraint condition
      let (result, child) ← within child do
        recordSide false true
        addConstraint condition.isZero
      MonadExcept.ofExcept result
      let maxDepth := (← executor).config.maxDepth
      if maxDepth ≠ 0 ∧ maxDepth ≤ (← state).depth then
        terminateEarly "max-depth exceeded"
        insertState child
        let _ ← visit child.id (terminateEarly "max-depth exceeded")
        return (none, none)
      insertState child
      return (some .current, some (.forked child.id)) : Exec σ Sides).Ends (fun _ ↦ True) g (Forks f) := by
  refine ends_bind_ok (run_recordSide true true) ?_
  refine ends_bind (lasting_addConstraint condition _) (fun _ g₁ h₁ ↦ ?_) fun e _ h ↦
    ⟨(hg.lasts hf h.1).idles, h.2 e rfl⟩
  have hg₁ : Twinned f g₁ child := hg.lasts hf h₁.1
  refine ends_bind (P := fun r h ↦ ∃ result copy, r = .ok (result, copy) ∧ Twinned f h copy ∧
    ∀ e, result = .error e → e.payload.kind = .early) (ends_within ?_) ?_ ?_
  · refine ends_bind_ok (run_recordSide false true) ((lasting_addConstraint condition.isZero _).mono fun r h hh ↦ ?_)
    have hlasts : g₁.Lasts { h with state := g₁.state } :=
      ⟨rfl, .refl _, hh.1.states_eq, hh.1.next_eq, hh.1.cases_eq, hh.1.removed_eq⟩
    have hh₁ := hg₁.lasts hf hlasts
    exact ⟨r, h.state, rfl, ⟨hh₁.idles, hg₁.data.trans hh.1.data, hh.1.id_eq.trans hg₁.id_eq,
      hh.1.id_eq ▸ hh₁.id_lt, hh₁.removed_eq⟩, hh.2⟩
  · rintro ⟨result, copy⟩ h ⟨_, _, ⟨⟩, htwin, hearly⟩
    refine ends_bind (P := fun r h' ↦ r = result ∧ h' = h) (ends_ofExcept ⟨rfl, rfl⟩) ?_ ?_
    · rintro _ h ⟨-, rfl⟩
      exact ends_insertSide_forks hf htwin
    · rintro e _ ⟨rfl, rfl⟩
      exact ⟨htwin.idles, hearly e rfl⟩
  · rintro _ _ ⟨_, _, ⟨⟩, -⟩

theorem ends_split_forks (hf : f.Tidy) : (split condition true).Ends (fun _ ↦ True) f (Forks f) := by
  have hcounted : f.Lasts (f.afterForks 1) := ⟨rfl, .refl _, rfl, rfl, rfl, rfl⟩
  refine ends_bind_ok (f := f.afterForks 1) rfl ?_
  refine ends_bind (ends_spawn_twinned (hf.afterForks 1)) ?_ fun _ _ h ↦ (nomatch h)
  rintro child g ⟨_, ⟨⟩, htwin⟩
  have htwin : Twinned f g child :=
    ⟨(hcounted.idles hf).trans htwin.idles, htwin.data, htwin.id_eq, htwin.id_lt, htwin.removed_eq⟩
  refine ends_bind_ok rfl (ends_bind_ok rfl ?_)
  dsimp only
  have hseeded : ∀ seeds : Std.TreeMap StateId (List Seed),
      Twinned f { g with executor := { g.executor with seeds } } child := fun seeds ↦
    htwin.lasts hf ⟨rfl, .refl _, rfl, rfl, rfl, rfl⟩
  split
  · refine ends_bind_ok rfl ?_
    split
    · split
      · exact ends_bothSides_forks hf (hseeded _)
      · exact ends_bind_ok rfl (ends_bothSides_forks hf (hseeded _))
    · refine ends_bind_ok rfl ?_
      split
      · exact ends_bothSides_forks hf (hseeded _)
      · exact ends_bind_ok rfl (ends_bothSides_forks hf (hseeded _))
  · exact ends_bothSides_forks hf htwin

theorem ends_fork_forks (hf : f.Tidy) : (fork condition true).Ends (fun _ ↦ True) f (Forks f) := by
  refine ends_bind (lasting_query _ f) (fun v g hg ↦ ?_) fun e _ h ↦ ⟨h.1.idles hf, h.2 e rfl⟩
  refine ends_bind (lasting_restrict condition v g) (fun v h hh ↦ ?_) fun e _ h ↦
    ⟨(hg.1.trans h.1).idles hf, h.2 e rfl⟩
  have hlasts : f.Lasts h := hg.1.trans hh.1
  have hone : ∀ b, (some Branch.current = some b ∨ none = some b) ∨ (none = some b ∨ some Branch.current = some b) →
      h.executor.removed = f.executor.removed ∧ ∃ s, h.stateAt? b = some s := by
    rintro b ((⟨⟨⟩⟩ | ⟨⟨⟩⟩) | (⟨⟨⟩⟩ | ⟨⟨⟩⟩))
    · exact ⟨hlasts.removed_eq, _, rfl⟩
    · exact ⟨hlasts.removed_eq, _, rfl⟩
  cases v with
  | always => exact ends_bind_ok (run_recordSide true true) (ends_pure ⟨hlasts.idles hf, fun b hb ↦ hone b (.inl hb)⟩)
  | never => exact ends_bind_ok (run_recordSide false true) (ends_pure ⟨hlasts.idles hf, fun b hb ↦ hone b (.inr hb)⟩)
  | sometimes =>
    refine Ends.mono (ends_split_forks ((hlasts.idles hf).tidy hf)) fun r g' h' ↦ ?_
    cases r with
    | ok sides =>
      refine ⟨(hlasts.idles hf).trans h'.1, fun b hb ↦ ?_⟩
      exact ⟨(h'.2 b hb).1.trans hlasts.removed_eq, (h'.2 b hb).2⟩
    | error e => exact ⟨(hlasts.idles hf).trans h'.1, h'.2⟩

theorem Placed.nodup {sides : Sides} (h : Placed f sides g) : (sides.1.toList ++ sides.2.toList).Nodup := by
  refine List.nodup_append.2 ⟨?_, ?_, ?_⟩
  · cases sides.1 <;> simp
  · cases sides.2 <;> simp
  · rintro b hb _ hb' rfl
    exact h.apart b (by simpa using hb) (by simpa using hb')

theorem settle_of_early {e : PathError} (h : e.payload.kind = .early) :
    (settle e : Exec σ Unit) = terminateEarly e.payload.message := by
  rw [settle, ExecError.isFatal, h]
  rfl

/-! ## One object after the other -/

variable {l : List (Branch × MemoryObject)} {done : List MemoryObject} {rest : Option Branch} {o : MemoryObject}
  {b : Branch}

/-- A solution for which the pointer is the start of none of the objects. -/
def Misses (I : Trust) (g : Focus σ) (p : Expr) (done : List MemoryObject) (a : Assignment) : Prop :=
  I.Solves a g.state.constraints ∧ ∀ o ∈ done, a.val p ≠ o.address

/-- The objects `done` were gone through. The pointer is the start of one of them at each place of `l`, and of none
of them where the rest is. -/
structure Sifted (I : Trust) (g : Focus σ) (p : Expr) (l : List (Branch × MemoryObject)) (done : List MemoryObject)
    (rest : Option Branch) (f : Focus σ) : Prop where
  idles : g.Idles f
  nodup : (l.map (·.1) ++ rest.toList).Nodup
  places : ∀ b ∈ l.map (·.1) ++ rest.toList, g.Result f b
  found : ∀ q ∈ l, ∃ s, f.stateAt? q.1 = some s ∧ s.id ∉ f.executor.removed ∧ s.Within I (·.val p = q.2.address)
  missed : ∀ b, rest = some b → ∃ s, f.stateAt? b = some s ∧ s.id ∉ f.executor.removed ∧
    s.Within I (Misses I g p done)

section

variable (hg : g.Tidy) (h : Sifted I g p l done (some b) f)
include hg h

theorem Sifted.kept {f' : Focus σ} {s : State} (hs : f.stateAt? b = some s) (hwork : (f.view b s).Multiplies f')
    {q : Branch × MemoryObject} (hq : q ∈ l) :
    (q.1 ≠ b ∧ g.Result f q.1) ∧ ∃ s', (f.back b f').stateAt? q.1 = some s' ∧
      s'.id ∉ (f.back b f').executor.removed ∧ s'.Within I (·.val p = q.2.address) := by
  have hmem : q.1 ∈ l.map (·.1) := List.mem_map_of_mem hq
  have hne : q.1 ≠ b := by
    rintro rfl
    have hnodup := h.nodup
    rw [Option.toList_some, List.nodup_append] at hnodup
    exact hnodup.2.2 _ hmem _ (List.mem_singleton_self _) rfl
  have hb := h.places b (by simp)
  have hq' := h.places q.1 (List.mem_append_left _ hmem)
  obtain ⟨s', hs', hlive, hwithin⟩ := h.found q hq
  refine ⟨⟨hne, hq'⟩, s', (hwork.stateAt?_back hne hq'.given).trans hs', fun hid ↦ ?_, hwithin⟩
  have hname := h.idles.named hq' hs'
  obtain hid | hid | hid := hwork.removed _ hid
  · exact hlive hid
  · exact hq'.idFrom_ne hg.own_lt hb hne.symm (((h.idles.named hb hs).symm.trans hid.symm).trans hname)
  · exact Nat.not_lt.2 hid.1 (hname ▸ hq'.idFrom_lt hg.own_lt h.idles.next_le)

theorem yields_forkOn_sifted (hright : I.right) (hf : f.Sound I) (hcond : condition.IsTruth)
    (hmeans : condition.Means fun a ↦ a.val p = o.address) :
    (forkOn b condition true).Yields f fun sides f' ↦
      Sifted I g p (l ++ sides.1.toList.map (·, o)) (done ++ [o]) sides.2 f' := by
  obtain ⟨s, hs, hlive, hwithin⟩ := h.missed b rfl
  have hb : g.Result f b := h.places b (by simp)
  have htidy := h.idles.tidy hg
  have hview : (f.view b s).Meets I (Misses I g p done) := by
    refine ⟨⟨?_, hf.of_stateAt? hs⟩, ?_, hlive, hwithin⟩
    · cases b with
      | current => exact hf.executor
      | forked id => exact hf.executor.erase id
    · cases b with
      | current => exact Option.some.inj hs ▸ htidy
      | forked id => exact htidy.visit hs
  have hplaces : (l.map (·.1)).Nodup := (List.nodup_append.1 h.nodup).1
  have hfork := (divides_fork hright hview hcond).and (ends_fork_forks hview.tidy)
  refine yields_bind (Q := fun sides f' ↦ match sides with
    | none => Sifted I g p l (done ++ [o]) none f'
    | some sides => Sifted I g p (l ++ (sides.1.map (·.relativeTo b)).toList.map (·, o)) (done ++ [o])
        (sides.2.map (·.relativeTo b)) f') (ends_onBranch hs hlive (hfork.mono fun r f' hr ↦ ?_))
    fun sides f' hsifted ↦ ?_
  · cases r with
    | error e =>
      -- the solver gave no answer, and what is left is given up
      obtain ⟨-, hidles, hearly⟩ := hr
      dsimp only
      rw [settle_of_early hearly]
      refine (ends_terminateEarly_idles (hidles.tidy hview.tidy) _).mono ?_
      rintro _ f'' ⟨rfl, hidles'⟩
      have hidles := hidles.trans hidles'
      refine ⟨none, rfl, h.idles.back hb hs hidles, by simpa using hplaces, fun b' hb' ↦ ?_,
        fun q hq ↦ (h.kept hg hs hidles.toMultiplies hq).2, nofun⟩
      obtain ⟨q, hq, rfl⟩ : ∃ q ∈ l, q.1 = b' := by simpa using hb'
      exact (h.kept hg hs hidles.toMultiplies hq).1.2.mono hidles.next_le
    | ok sides =>
      obtain ⟨⟨hplaced, hparts⟩, hidles, hstand⟩ := hr
      have hresult : ∀ inner, sides.1 = some inner ∨ sides.2 = some inner → f.Result f' inner := by
        intro inner hinner
        cases inner with
        | current => trivial
        | forked id => exact ⟨hplaced.fresh _ hinner id rfl, hplaced.given _ hinner⟩
      have hside : ∀ inner, sides.1 = some inner ∨ sides.2 = some inner →
          ∃ s', (f.back b f').stateAt? (inner.relativeTo b) = some s' ∧
            s'.id ∉ (f.back b f').executor.removed ∧ AtSides I (Misses I g p done) condition sides inner s' := by
        intro inner hinner
        obtain ⟨hremoved, s', hs'⟩ := hstand inner hinner
        have hfresh := hplaced.fresh inner hinner
        have hgoing : s'.id ∉ f'.executor.removed := hremoved ▸ hidles.not_removed hview.going hview.tidy
          (hresult inner hinner) hs'
        exact ⟨s', (Focus.stateAt?_back_relativeTo hb.given hfresh).trans hs', hgoing,
          hparts.of_going hfresh hs' hgoing⟩
      have hlist : ((l ++ (sides.1.map (·.relativeTo b)).toList.map (·, o)).map (·.1) ++
          (sides.2.map (·.relativeTo b)).toList) =
            l.map (·.1) ++ (sides.1.toList ++ sides.2.toList).map (·.relativeTo b) := by
        simp [Function.comp_def, Option.toList_map]
      refine ⟨_, rfl, h.idles.back hb hs hidles, hlist ▸ ?_, hlist ▸ fun b' hb' ↦ ?_, fun q hq ↦ ?_, fun b' hb' ↦ ?_⟩
      · refine List.nodup_append.2 ⟨hplaces, ?_, ?_⟩
        · refine List.pairwise_map.2 (hplaced.nodup.imp_of_mem fun hinner hinner' hne heq ↦ hne ?_)
          exact Focus.relativeTo_inj hb (hresult _ (by simpa using hinner)) (hresult _ (by simpa using hinner')) heq
        · rintro _ hold _ hnew rfl
          obtain ⟨q, hq, rfl⟩ := List.mem_map.1 hold
          obtain ⟨inner, hinner, heq⟩ := List.mem_map.1 hnew
          obtain ⟨hne, hq⟩ := (h.kept hg hs hidles.toMultiplies hq).1
          have hbeside : g.Beside f (some b) q.1 := ⟨fun heq ↦ hne (Option.some.inj heq).symm, hq⟩
          exact Focus.not_beside_relativeTo (hresult inner (by simpa using hinner)) (heq.symm ▸ hbeside)
      · obtain hb' | hb' := List.mem_append.1 hb'
        · obtain ⟨q, hq, rfl⟩ := List.mem_map.1 hb'
          exact (h.kept hg hs hidles.toMultiplies hq).1.2.mono hidles.next_le
        · obtain ⟨inner, hinner, rfl⟩ := List.mem_map.1 hb'
          exact Focus.result_relativeTo h.idles.next_le hidles.next_le hb (hresult inner (by simpa using hinner))
      · obtain hq | hq := List.mem_append.1 hq
        · exact (h.kept hg hs hidles.toMultiplies hq).2
        · obtain ⟨inner, hinner, rfl⟩ : ∃ inner, sides.1 = some inner ∧ (inner.relativeTo b, o) = q := by simpa using hq
          obtain ⟨s', hs', hlive', hat⟩ := hside inner (.inl hinner)
          refine ⟨s', hs', hlive', fun a ha ↦ ?_⟩
          obtain ⟨-, hwithin⟩ | ⟨hinner', -⟩ := hat
          · exact (hmeans.val_iff ha.free).1 (hwithin a ha).2
          · exact (hplaced.apart _ hinner hinner').elim
      · obtain ⟨inner, hinner, rfl⟩ := Option.map_eq_some_iff.1 hb'
        obtain ⟨s', hs', hlive', hat⟩ := hside inner (.inr hinner)
        refine ⟨s', hs', hlive', fun a ha ↦ ?_⟩
        obtain ⟨hinner', -⟩ | ⟨-, hwithin⟩ := hat
        · exact (hplaced.apart _ hinner' hinner).elim
        · obtain ⟨⟨hsolves, hmissed⟩, hfails⟩ := hwithin a ha
          refine ⟨hsolves, List.forall_mem_append.2 ⟨hmissed, List.forall_mem_singleton.2 fun heq ↦ ?_⟩⟩
          exact (hmeans.val_iff ha.free).2 heq hfails
  · cases sides with
    | none => exact yields_pure (by simpa using hsifted)
    | some sides => exact yields_pure hsifted

end

theorem Sifted.ended {objects : List MemoryObject} (h : Sifted I g p l done none f) :
    Sifted I g p l (done ++ objects) none f :=
  ⟨h.idles, h.nodup, h.places, h.found, nofun⟩

theorem yields_eachObject_sifted (hright : I.right) (hg : g.Tidy) (hp : p.IsAddress) {objects : List MemoryObject}
    (hobjects : ∀ o ∈ objects, o.address < wordLimit) (hf : f.Sound I) (h : Sifted I g p l done rest f) :
    (eachObject (fun o ↦ Expr.mkEq p o.base) (fun b o ↦ return some (b, o)) objects rest :
      Exec σ (List (Branch × MemoryObject) × Option Branch)).Yields f fun r f' ↦
        (∀ q ∈ r.1, q.2 ∈ objects) ∧ Sifted I g p (l ++ r.1) (done ++ objects) r.2 f' := by
  induction objects generalizing l done rest f with
  | nil => exact yields_pure ⟨by simp, by simpa using h⟩
  | cons o objects ih =>
    rw [List.forall_mem_cons] at hobjects
    cases rest with
    | none => exact yields_pure ⟨by simp, by simpa using h.ended⟩
    | some b =>
      have hbase : o.base.IsAddress := Expr.isAddress_pointer _
      obtain ⟨condition, hcondition, hmeans⟩ := Expr.exists_mkEq hp.wellFormed hbase.wellFormed
        (hp.width_eq.trans hbase.width_eq.symm)
      have hmeans : condition.Means fun a ↦ a.val p = o.address := hmeans.congr fun _ ↦ by
        rw [MemoryObject.base, Assignment.val_pointer hobjects.1]
      rw [eachObject]
      refine ends_seq (ends_lift (Checked.ends_of_eq hcondition ?_))
      refine yields_bind ((yields_forkOn_sifted hg h hright hf hmeans.truth hmeans).and
        (keeps_forkOn b hmeans.truth true f hf)) ?_
      rintro ⟨inside, outside⟩ f' ⟨h', hf', -⟩
      have hrest : ∀ here : Option (Branch × MemoryObject), inside.map (·, o) = here → (do
          let r ← eachObject (fun o ↦ Expr.mkEq p o.base) (fun b o ↦ return some (b, o)) objects outside
          return (here.toList ++ r.1, r.2) : Exec σ (List (Branch × MemoryObject) × Option Branch)).Yields f'
            fun r f'' ↦ (∀ q ∈ r.1, q.2 ∈ o :: objects) ∧ Sifted I g p (l ++ r.1) (done ++ o :: objects) r.2 f'' := by
        rintro _ rfl
        refine yields_bind (ih hobjects.2 hf' h') ?_
        rintro ⟨found, rest⟩ f'' ⟨hfound, h''⟩
        refine yields_pure ⟨fun q hq ↦ ?_, by simpa [Option.toList_map] using h''⟩
        obtain hq | hq := List.mem_append.1 hq
        · obtain ⟨b', -, rfl⟩ : ∃ b', inside = some b' ∧ (b', o) = q := by simpa using hq
          exact List.mem_cons_self
        · exact List.mem_cons_of_mem _ (hfound q hq)
      cases inside with
      | none => exact ends_bind_ok rfl (hrest none rfl)
      | some inside => exact ends_bind_ok rfl (hrest (some (inside, o)) rfl)

/-! ## What is left over -/

theorem ends_report_closes (error : ExecError) (f : Focus σ) :
    (do
      let details ← addressInfo p
      terminateOnError ⟨(← executor).location, error⟩ (some details) : Exec σ Unit).Ends (fun _ ↦ True) f
        fun r g ↦ f.Closes g ∧ ∀ e, r = .error e → e.payload.kind = .early := by
  refine ends_bind (lasting_addressInfo p f) (fun details g hg ↦ ends_bind_ok rfl ?_) fun e _ h ↦
    ⟨h.1.closes, fun _ he ↦ h.2 _ (by cases he; rfl)⟩
  refine (ends_terminateOnError_any _ _).mono ?_
  rintro _ h ⟨rfl, hended⟩
  refine ⟨hg.1.closes.trans ?_, nofun⟩
  cases hended with
  | again => exact (Focus.Lasts.refl g).closes
  | reported _ hstate =>
    exact ⟨rfl, .refl _, rfl, rfl, ⟨_, Array.toList_push, by simpa using hstate⟩, fun id hid ↦
      (List.mem_append.1 hid).imp_right List.mem_singleton.1⟩
  | repeated =>
    exact ⟨rfl, .refl _, rfl, rfl, ⟨[], (List.append_nil _).symm, nofun⟩, fun id hid ↦
      (List.mem_append.1 hid).imp_right List.mem_singleton.1⟩

theorem stays_report (error : ExecError) :
    (do
      let details ← addressInfo p
      terminateOnError ⟨(← executor).location, error⟩ (some details) : Exec σ Unit).Stays I False :=
  stays_bind (stays_addressInfo p) fun _ ↦ stays_bind stays_executor fun _ ↦ stays_terminateOnError _ _

theorem yields_onSide_report (error : ExecError) {s : State} (hs : f.stateAt? b = some s)
    (hlive : s.id ∉ f.executor.removed) :
    (onSide (some b) do
      let details ← addressInfo p
      terminateOnError ⟨(← executor).location, error⟩ (some details) : Exec σ Unit).Yields f fun _ f' ↦
        ∃ g', f' = f.back b g' ∧ (f.view b s).Closes g' ∧ (f.view b s).Own I g' := by
  refine yields_bind (Q := fun _ f' ↦ ∃ g', f' = f.back b g' ∧ (f.view b s).Closes g' ∧ (f.view b s).Own I g')
    (ends_onBranch hs hlive (((ends_report_closes error _).and (stays_report (I := I) error _)).mono ?_))
    fun _ _ h ↦ yields_pure h
  rintro r g' ⟨⟨hcloses, hearly⟩, hsolo, -⟩
  cases r with
  | ok _ => exact ⟨_, rfl, g', rfl, hcloses, hsolo.toOwn⟩
  | error e =>
    dsimp only
    have hsettle : (settle e : Exec σ Unit).Stays I False := stays_settle e
    have hrun := hsettle g'
    rw [settle_of_early (hearly e rfl)] at hrun ⊢
    refine ((ends_terminateEarly_closes _ g').and hrun).mono ?_
    rintro _ g'' ⟨⟨rfl, hcloses', -⟩, hsolo', -⟩
    exact ⟨_, rfl, g'', rfl, hcloses.trans hcloses', hsolo.toOwn.trans hsolo'.toOwn⟩

/-- In no solution of the state that is called `id` is the pointer the start of an object there. -/
def Astray (I : Trust) (p : Expr) (f : Focus σ) (id : StateId) : Prop :=
  ∃ b s, f.stateAt? b = some s ∧ s.id = id ∧
    ∀ a, I.Solves a s.constraints → ∀ x ∈ s.memory.toList, a.val p ≠ x.object.address

/-- The objects that were found are bound. Each is at a place of its own, where the pointer is its start. If all of
them were found, a state that ended was given up, or the pointer is the start of no object there. -/
structure Spotted (I : Trust) (g : Focus σ) (p : Expr) (complete : Prop) (found : List (Branch × MemoryObject))
    (f : Focus σ) : Prop where
  nodup : (found.map (·.1)).Nodup
  bound : ∀ q ∈ found, ∃ x ∈ g.state.memory.toList, x.object = q.2
  starts : ∀ q ∈ found, ∃ s, f.stateAt? q.1 = some s ∧ s.id ∉ f.executor.removed ∧ g.state.SameData s ∧
    s.Within I (·.val p = q.2.address)
  ended : complete → ∃ new, f.executor.cases.toList = g.executor.cases.toList ++ new ∧
    (∀ t ∈ new, t.Early ∨ Astray I p f t.state) ∧ ∀ id ∈ f.executor.removed,
      id ∈ g.executor.removed ∨ (∃ t ∈ new, t.state = id ∧ t.Early) ∨ Astray I p f id

section

variable {complete : Prop} (hbound : ∀ q ∈ l, ∃ x ∈ g.state.memory.toList, x.object = q.2)
include hbound

theorem Sifted.spotted (h : Sifted I g p l done none f) : Spotted I g p complete l f := by
  refine ⟨(List.nodup_append.1 h.nodup).1, hbound, fun q hq ↦ ?_, fun _ ↦ ?_⟩
  · obtain ⟨s, hs, hlive, hwithin⟩ := h.found q hq
    have hq' := h.places q.1 (List.mem_append_left _ (List.mem_map_of_mem hq))
    exact ⟨s, hs, hlive, h.idles.dataAt hq' hs, hwithin⟩
  · obtain ⟨new, hnew, hearly, hremoved⟩ := h.idles.givenUp
    refine ⟨new, hnew, fun t ht ↦ .inl (hearly t ht), fun id hid ↦ (hremoved id hid).imp_right ?_⟩
    rintro ⟨t, ht, htold⟩
    exact .inl ⟨t, ht, htold, hearly t ht⟩

theorem Sifted.spotted_back {f' : Focus σ} {s : State} (hg : g.Tidy) (h : Sifted I g p l done (some b) f)
    (hs : f.stateAt? b = some s) (hcloses : (f.view b s).Closes f') (hown : (f.view b s).Own I f')
    (hdone : complete → ∀ a, I.Solves a g.state.constraints → ∀ x ∈ g.state.memory.toList,
      a.val p = x.object.address → x.object ∈ done) : Spotted I g p complete l (f.back b f') := by
  have hb := h.places b (by simp)
  have hview : (f.view b s).Tidy := by
    have htidy := h.idles.tidy hg
    cases b with
    | current => exact Option.some.inj hs ▸ htidy
    | forked id => exact htidy.visit hs
  have hwork := hcloses.multiplies hview
  have hall := h.idles.toMultiplies.back hb hs hwork
  refine ⟨(List.nodup_append.1 h.nodup).1, hbound, fun q hq ↦ ?_, fun hcomplete ↦ ?_⟩
  · obtain ⟨⟨-, hq'⟩, s', hs', hlive, hwithin⟩ := h.kept hg hs hwork hq
    exact ⟨s', hs', hlive, hall.dataAt (hq'.mono hwork.next_le) hs', hwithin⟩
  · have hastray : Astray I p (f.back b f') s.id := by
      obtain ⟨s₁, hs₁, -, hmissed⟩ := h.missed b rfl
      obtain rfl : s₁ = s := Option.some.inj (hs₁.symm.trans hs)
      refine ⟨b, f'.state, Focus.stateAt?_back .., hcloses.id_eq, fun a ha x hx heq ↦ ?_⟩
      obtain ⟨hsolves, hnone⟩ := hmissed a (hown.narrower a ha)
      have hdata : g.state.SameData f'.state := (h.idles.dataAt hb hs).trans hcloses.data
      have hlist : f'.state.memory.toList = g.state.memory.toList := congrArg AvlMap.values hdata.objects_eq
      exact hnone x.object (hdone hcomplete a hsolves x (hlist ▸ hx) heq) heq
    obtain ⟨new, hnew, hearly, hremoved⟩ := h.idles.givenUp
    obtain ⟨new', hnew', hlast⟩ := hcloses.cases
    refine ⟨new ++ new', ?_, List.forall_mem_append.2 ⟨fun t ht ↦ .inl (hearly t ht), fun t ht ↦ .inr ?_⟩,
      fun id hid ↦ ?_⟩
    · exact hnew'.trans (by rw [← List.append_assoc, ← hnew]; rfl)
    · exact hlast t ht ▸ hastray
    · obtain hid | rfl := hcloses.removed id hid
      · refine (hremoved id hid).imp_right ?_
        rintro ⟨t, ht, htold⟩
        exact .inl ⟨t, List.mem_append_left _ ht, htold, hearly t ht⟩
      · exact .inr (.inr hastray)

end

/-! ## The search -/

/-- A pointer of a live state whose memory is as it should be, in a machine whose solver is right if it answers. -/
structure Pointing (I : Inputs) (g : Focus σ) (p : Expr) : Prop where
  sound : g.Sound I.trusted
  tidy : g.Tidy
  going : g.Going
  memory : g.state.memory.Addressable
  address : p.IsAddress

section

variable {I : Inputs} (h : Pointing I g p)
include h

theorem Pointing.exists_resolve : ∃ resolution solver,
    (resolve p).run.run g = .ok (.ok resolution, g.withSolver solver) ∧ g.executor.solver.Same solver ∧
      AddressSpace.Resolved I g.state.memory g.state.constraints p True resolution := by
  have hsearch : Finds I True (g.state.memory.resolve (σ := σ) g.state.constraints p
      g.executor.config.maxResolutions g.executor.solver.timeout)
      (AddressSpace.Resolved I g.state.memory g.state.constraints p True) :=
    finds_of_findsBy fun _ ↦ AddressSpace.findsBy_resolve h.sound.state.valid (h.sound.state.satisfiable trivial)
      h.memory h.address (fun _ ↦ trivial) (fun _ ↦ trivial) fun _ _ _ ↦ trivial
  obtain ⟨resolution, solver, hrun, hsame, hresolved⟩ := hsearch _ (h.sound.executor.exact trivial)
  obtain ⟨_, _, hrun, rfl, rfl⟩ : (resolve p).Returns g fun r f ↦ r = resolution ∧ f = g.withSolver solver :=
    returns_of_ends (ends_bind_ok rfl (ends_seq (ends_lift (Checked.ends_of_eq hrun (ends_bind_ok rfl (ends_pure
      ⟨_, rfl, rfl, rfl⟩))))))
  exact ⟨_, _, hrun, hsame, hresolved⟩

theorem Pointing.sifted (solver : Solver σ) :
    Sifted I.trusted (g.withSolver solver) p [] [] (some .current) (g.withSolver solver) := by
  have hstart : (g.withSolver solver).Lasts (g.withSolver solver) := .refl _
  refine ⟨hstart.idles ?_, by simp, by simp [Focus.Result], nofun, ?_⟩
  · exact ⟨h.tidy.named, h.tidy.own_lt, h.tidy.own_none, h.tidy.removed_lt⟩
  · rintro _ ⟨⟩
    exact ⟨g.state, rfl, h.going, fun a ha ↦ ⟨ha, nofun⟩⟩

theorem Pointing.yields_resolveExact {resolution : Resolution} {solver : Solver σ}
    (hrun : (resolve p).run.run g = .ok (.ok resolution, g.withSolver solver)) (hsame : g.executor.solver.Same solver)
    (hresolved : AddressSpace.Resolved I g.state.memory g.state.constraints p True resolution) (operation : String) :
    (resolveExact p operation).Yields g (Spotted I.trusted g p (resolution.incomplete = false)) := by
  have hbound : ∀ o ∈ resolution.objects.map (·.object), ∃ q ∈ g.state.memory.entries, q.2.object = o := by
    intro o ho
    obtain ⟨x, hx, rfl⟩ := List.mem_map.1 ho
    obtain ⟨q, hq, rfl, -⟩ := hresolved.hit x hx
    exact ⟨q, hq, rfl⟩
  have hdone : resolution.incomplete = false → ∀ a, I.Solves a g.state.constraints →
      ∀ x ∈ g.state.memory.toList, a.val p = x.object.address → x.object ∈ resolution.objects.map (·.object) := by
    intro hcomplete a ha x hx heq
    obtain ⟨q, hq, rfl⟩ := AddressSpace.mem_toList.1 hx
    refine List.mem_map_of_mem (hresolved.covers hcomplete q hq ⟨a, ha, ?_⟩)
    rw [AddressSpace.PointsInto, heq, h.memory.address_eq hq]
    exact ⟨Nat.le_refl _, Nat.lt_add_of_pos_right (Nat.lt_of_lt_of_le Nat.zero_lt_one (Nat.le_max_right ..))⟩
  have hsound : (g.withSolver solver).Sound I.trusted := h.sound.withSolver fun _ ↦ hsame
  have htidy : (g.withSolver solver).Tidy := ⟨h.tidy.named, h.tidy.own_lt, h.tidy.own_none, h.tidy.removed_lt⟩
  refine ends_bind_ok hrun (yields_bind
    (yields_eachObject_sifted trivial htidy h.address (fun o ho ↦ ?_) hsound (h.sifted solver)) ?_)
  · obtain ⟨q, hq, rfl⟩ := hbound o ho
    exact h.memory.address_eq hq ▸ h.memory.address_lt hq
  · rintro ⟨found, rest⟩ f ⟨hfound, hsifted⟩
    rw [List.nil_append] at hsifted
    have hobjects : ∀ q ∈ found, ∃ x ∈ g.state.memory.toList, x.object = q.2 := by
      intro q hq
      obtain ⟨r, hr, heq⟩ := hbound q.2 (hfound q hq)
      exact ⟨r.2, AddressSpace.mem_toList.2 ⟨r, hr, rfl⟩, heq⟩
    cases rest with
    | none =>
      have hspotted : Spotted I.trusted (g.withSolver solver) p (resolution.incomplete = false) found f :=
        hsifted.spotted hobjects
      exact ends_bind_ok rfl (yields_pure ⟨hspotted.nodup, hspotted.bound, hspotted.starts, hspotted.ended⟩)
    | some b =>
      obtain ⟨s, hs, hlive, -⟩ := hsifted.missed b rfl
      refine yields_bind (yields_onSide_report (I := I.trusted) _ hs hlive) ?_
      rintro _ _ ⟨f', rfl, hcloses, hown⟩
      have hspotted : Spotted I.trusted (g.withSolver solver) p (resolution.incomplete = false) found (f.back b f') :=
        Sifted.spotted_back (g := g.withSolver solver) hobjects htidy hsifted hs hcloses hown hdone
      exact yields_pure ⟨hspotted.nodup, hspotted.bound, hspotted.starts, hspotted.ended⟩

end

/-- A state is divided by the objects that a pointer is the start of, as far as they were found. If all of them were
found, no state whose pointer is the start of an object is reported for the pointer. -/
theorem resolveExact_locates {I : Inputs} (h : Pointing I g p) (operation : String) :
    ∃ resolution solver, (resolve p).run.run g = .ok (.ok resolution, g.withSolver solver) ∧
      (resolveExact p operation).Yields g (Spotted I.trusted g p (resolution.incomplete = false)) ∧
        (g.Workable I →
          (resolveExact p operation).Returns g (Spotted I.trusted g p (resolution.incomplete = false))) := by
  obtain ⟨resolution, solver, hrun, hsame, hresolved⟩ := h.exists_resolve
  have hyields := h.yields_resolveExact hrun hsame hresolved operation
  refine ⟨resolution, solver, hrun, hyields, fun hg ↦ returns_of_ends ?_⟩
  refine (Ends.and (turns_resolveExact h.memory h.address hg.share operation) hyields).mono ?_
  rintro _ f ⟨-, hspotted⟩
  exact hspotted

theorem pointing_movable : Pointing .all movable somewhere where
  sound := {
    executor := {
      exact := fun _ ↦ Backend.exact_omniscient _ _
      constants := by simp [movable, holding]
      states := by simp [movable, holding] }
    state := {
      valid := ConstraintSet.valid_empty
      satisfiable := fun _ ↦ Inputs.satisfiable_empty _
      threads := (State.sound_start Inputs.all.trusted 0 0 1).threads
      memory := {
        sorted := roomy_movable.memory.spaced.sorted
        contents := by
          have hentries : movable.state.memory.entries = [(fourBytes.object.key, fourBytes)] := rfl
          simp only [hentries, List.mem_singleton, forall_eq]
          exact ObjectState.wellFormed_of_no_terms rfl rfl } } }
  tidy := ⟨by simp [movable, holding], Nat.zero_lt_one, by simp [movable, holding], by simp [movable, holding]⟩
  going := workable_movable.live
  memory := roomy_movable.memory
  address := isAddress_somewhere

/-- A pointer to the object or somewhere else. -/
theorem resolveExact_locates_movable :
    ∃ resolution solver, (resolve somewhere).run.run movable = .ok (.ok resolution, movable.withSolver solver) ∧
      (resolveExact somewhere "free").Yields movable
        (Spotted Inputs.all.trusted movable somewhere (resolution.incomplete = false)) ∧
      (resolveExact somewhere "free").Returns movable
        (Spotted Inputs.all.trusted movable somewhere (resolution.incomplete = false)) := by
  obtain ⟨resolution, solver, hrun, hyields, hreturns⟩ := resolveExact_locates pointing_movable "free"
  exact ⟨resolution, solver, hrun, hyields, hreturns workable_movable⟩

end Exec

end Symex
