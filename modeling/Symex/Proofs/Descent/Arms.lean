import Symex.Proofs.Descent.Forks
import Symex.Proofs.Seeding.Custody

namespace Symex

open Checked

variable {σ α β : Type} {f g k : Focus σ} {held : List State} {s child : State} {arms : List Branch} {b : Branch}
  {p q : Prop}

namespace Focus

/-- The states at these places are copies of the state that `f` worked on, at leaves of their own. -/
structure Fans (held : List State) (f : Focus σ) (arms : List Branch) (g : Focus σ) : Prop where
  follows : f.Follows held g
  current : .current ∈ arms
  places : ∀ b ∈ arms, ∃ s, g.stateAt? b = some s ∧ s.Sits g.executor.tree ∧ f.state.SameWaits s

theorem Fans.firm (h : f.Fans held arms g) : g.Firm := by
  obtain ⟨s, hs, hsits, -⟩ := h.places .current h.current
  rw [Focus.Firm, Option.some.inj hs]
  exact hsits

/-- A copy of the state `s` came up. The states are at the places where they were. -/
structure Sprouts (held : List State) (f : Focus σ) (s child : State) (g : Focus σ) : Prop where
  seated : g.Seated (child :: held)
  sits : child.Sits g.executor.tree
  waits : s.SameWaits child
  id_eq : g.state.id = f.state.id
  kept : ∀ s ∈ held, s.Sits f.executor.tree → s.Sits g.executor.tree
  places : ∀ b s, f.stateAt? b = some s → s.Sits f.executor.tree →
    ∃ s', g.stateAt? b = some s' ∧ s'.Sits g.executor.tree ∧ s.SameWaits s'

theorem Spawns.sprouts (hf : f.Seated held) (h : f.Spawns held child g) : f.Sprouts held f.state child g := by
  refine ⟨h.seated, h.sits, h.childWaits, h.id_eq, fun s hs ↦ h.kept s (hf.ne_of_mem_held hs), ?_⟩
  intro b s hs hsits
  cases b with
  | current =>
    obtain rfl := Option.some.inj hs
    exact ⟨g.state, rfl, h.firm, h.waits⟩
  | forked id =>
    refine ⟨s, ?_, h.kept s (hf.ne_of_live hs) hsits, .refl s⟩
    exact (congrArg (·[id]?) h.states_eq).trans hs

theorem Spawns.sprouts_visit {id : StateId} (hf : f.Seated held) (hs : f.executor.states[id]? = some s)
    (h : Spawns (f.state :: held) ⟨{ f.executor with states := f.executor.states.erase id }, s⟩ child g) :
    f.Sprouts held s child ⟨{ g.executor with states := g.executor.states.insert id g.state }, f.state⟩ := by
  have hid : g.state.id = id := h.id_eq.trans (hf.named id s hs)
  have hkept : ∀ s' : State, s'.id ≠ s.id → s'.Sits f.executor.tree → s'.Sits g.executor.tree := h.kept
  have hne : f.state.id ≠ s.id := (hf.ne_of_live hs).symm
  refine ⟨hid ▸ (h.seated.perm (.swap ..)).leave, h.sits, h.childWaits, rfl, ?_, ?_⟩
  · intro s' hs'
    refine hkept s' fun heq ↦ ?_
    have hnone := hf.outside s' (List.mem_cons_of_mem _ hs')
    rw [heq, hf.named id s hs, hs] at hnone
    cases hnone
  · intro b s' hs' hsits
    cases b with
    | current =>
      obtain rfl := Option.some.inj hs'
      exact ⟨f.state, rfl, hkept f.state hne hsits, .refl _⟩
    | forked id' =>
      by_cases heq : id' = id
      · subst heq
        obtain rfl := Option.some.inj (hs.symm.trans hs')
        exact ⟨g.state, Std.TreeMap.getElem?_insert_self, h.firm, h.waits⟩
      · have hne' : s'.id ≠ s.id := by rwa [hf.named id' s' hs', hf.named id s hs]
        refine ⟨s', ?_, hkept s' hne' hsits, .refl s'⟩
        have hcompare : ¬compare id id' = .eq := fun h ↦ heq (Std.LawfulEqOrd.eq_of_compare h).symm
        rw [stateAt?, Std.TreeMap.getElem?_insert, if_neg hcompare, h.states_eq, Std.TreeMap.getElem?_erase,
          if_neg hcompare]
        exact hs'

theorem Fans.insert (h : f.Fans held arms g) (hsame : f.state.SameWaits s)
    (hk : g.Sprouts held s child k) : f.Fans held (arms ++ [.forked child.id])
      { k with executor := { k.executor with states := k.executor.states.insert child.id child } } := by
  have hnone : k.executor.states[child.id]? = none :=
    hk.seated.outside child (List.mem_cons_of_mem _ List.mem_cons_self)
  refine ⟨⟨hk.seated.insert, hk.id_eq.trans h.follows.id_eq, ?_⟩, List.mem_append_left _ h.current, ?_⟩
  · exact fun s hs hsits ↦ hk.kept s hs (h.follows.kept s hs hsits)
  · intro b' hb'
    rcases List.mem_append.1 hb' with hb' | hb'
    · obtain ⟨s₁, hs₁, hsits, hsame₁⟩ := h.places b' hb'
      obtain ⟨s₂, hs₂, hsits₂, hsame₂⟩ := hk.places b' s₁ hs₁ hsits
      refine ⟨s₂, ?_, hsits₂, hsame₁.trans hsame₂⟩
      cases b' with
      | current => exact hs₂
      | forked id =>
        have hne : ¬compare child.id id = .eq := by
          intro heq
          rw [Std.LawfulEqOrd.eq_of_compare heq] at hnone
          cases hnone.symm.trans hs₂
        exact (Std.TreeMap.getElem?_insert.trans (if_neg hne)).trans hs₂
    · obtain rfl := List.mem_singleton.1 hb'
      exact ⟨child, Std.TreeMap.getElem?_insert_self, hk.sits, hsame.trans hk.waits⟩

end Focus

namespace Exec

open Focus

variable {x : Exec σ α} {y : α → Exec σ β}

/-! ## Copies -/

theorem ends_duplicate_fans (h : f.Fans held arms g) (hb : b ∈ arms) :
    (duplicate b).Ends (· ≠ .misuse) g fun r k ↦ ∃ b', r = .ok b' ∧ f.Fans held (arms ++ [b']) k := by
  have hg := h.follows.seated
  have hinsert {s child : State} {k : Focus σ} (hsame : f.state.SameWaits s) (hk : g.Sprouts held s child k) :
      (do insertState child; pure (.forked child.id) : Exec σ Branch).Ends (· ≠ .misuse) k fun r k ↦
        ∃ b', r = .ok b' ∧ f.Fans held (arms ++ [b']) k :=
    ends_bind_ok rfl (ends_pure ⟨_, rfl, h.insert hsame hk⟩)
  obtain ⟨s, hs, hsits, hsame⟩ := h.places b hb
  cases b with
  | current =>
    obtain rfl := Option.some.inj hs
    refine ends_bind (ends_spawn_seated hg h.firm) ?_ ?_
    · rintro child k ⟨_, ⟨⟩, hk⟩
      exact hinsert hsame (hk.sprouts hg)
    · rintro _ _ ⟨_, ⟨⟩, -⟩
  | forked id =>
    refine ends_bind (P := fun r k ↦ ∃ child, r = .ok (some child) ∧ g.Sprouts held s child k)
      (ends_visit (fun hnone ↦ nomatch hnone.symm.trans hs) fun s' hs' ↦ ?_) ?_ ?_
    · obtain rfl := Option.some.inj (hs.symm.trans hs')
      refine (ends_spawn_seated (hg.enter hs) hsits).mono ?_
      rintro _ k ⟨child, rfl, hk⟩
      exact ⟨child, rfl, hk.sprouts_visit hg hs⟩
    · rintro _ k ⟨child, ⟨⟩, hk⟩
      exact ends_bind_ok rfl (hinsert hsame hk)
    · rintro _ _ ⟨_, ⟨⟩, -⟩

theorem ends_draw_fans {d : Rng → α × Rng} (h : f.Fans held arms g) :
    (draw d).Ends (· ≠ .misuse) g fun r k ↦ (∀ e, r ≠ .error e) ∧ f.Fans held arms k :=
  ends_draw ⟨nofun, ⟨h.follows.seated.withExecutor rfl (fun _ h ↦ h) rfl rfl, h.follows.id_eq, h.follows.kept⟩,
    h.current, h.places⟩

theorem ends_copies_fans (l : List Nat) {all : Array Branch} (h : f.Fans held all.toList g) :
    (l.foldlM (fun (all : Array Branch) i ↦ do
      let parent ← draw (·.index (i + 1))
      return all.push (← duplicate (all[parent]?.getD .current))) all : Exec σ _).Ends (· ≠ .misuse) g
        fun r k ↦ ∃ all : Array Branch, r = .ok all ∧ f.Fans held all.toList k := by
  induction l generalizing all g with
  | nil => exact ends_pure ⟨all, rfl, h⟩
  | cons i l ih =>
    rw [List.foldlM_cons]
    refine ends_bind (P := fun r k ↦ ∃ all : Array Branch, r = .ok all ∧ f.Fans held all.toList k) ?_ ?_ ?_
    · refine ends_bind (ends_draw_fans h) (fun parent k hk ↦ ?_) fun e _ hk ↦ absurd rfl (hk.1 e)
      · have hmem : all[parent]?.getD .current ∈ all.toList := by
          cases hp : all[parent]? with
          | none => exact h.current
          | some b => exact Array.mem_def.1 (Array.mem_of_getElem? hp)
        refine ends_bind (ends_duplicate_fans hk.2 hmem) ?_ ?_
        · rintro _ k ⟨b, ⟨⟩, hk⟩
          exact ends_pure ⟨_, rfl, by rwa [Array.toList_push]⟩
        · rintro _ _ ⟨_, ⟨⟩, -⟩
    · rintro _ k ⟨all, ⟨⟩, hk⟩
      exact ih hk
    · rintro _ _ ⟨_, ⟨⟩, -⟩

theorem ends_arms_fans (hf : f.Seated held) (hfirm : f.Firm) (count : Nat) :
    (Exec.arms count).Ends (· ≠ .misuse) f fun r g ↦ ∃ l, r = .ok l ∧ ∃ arms, f.Fans held arms g ∧
      ∀ b, some b ∈ l → b ∈ arms := by
  have hfans (statistics : Statistics) :
      f.Fans held [.current] { f with executor := { f.executor with statistics } } := by
    refine ⟨.withExecutor hf rfl (fun _ h ↦ h) rfl rfl, List.mem_singleton_self _, fun b hb ↦ ?_⟩
    obtain rfl := List.mem_singleton.1 hb
    exact ⟨f.state, rfl, hfirm, .refl _⟩
  refine ends_bind_ok rfl ?_
  split
  · refine ends_bind (ends_draw_fans (hfans f.executor.statistics)) (fun chosen g hg ↦ ?_) fun e _ hg ↦
      absurd rfl (hg.1 e)
    refine ends_pure ⟨_, rfl, _, hg.2, fun b hb ↦ ?_⟩
    obtain ⟨i, -, hi⟩ := List.mem_map.1 hb
    split at hi
    · exact Option.some.inj hi ▸ List.mem_singleton_self _
    · cases hi
  · refine ends_bind_ok rfl (ends_bind (ends_copies_fans _ (hfans _)) ?_ ?_)
    · rintro _ g ⟨all, ⟨⟩, hg⟩
      refine ends_pure ⟨_, rfl, _, hg, fun b hb ↦ ?_⟩
      obtain ⟨b', hb', heq⟩ := List.mem_map.1 hb
      exact Option.some.inj heq ▸ hb'
    · rintro _ _ ⟨_, ⟨⟩, -⟩

/-! ## Seeds of arms -/

theorem seats_seedArm (arm : Option Branch) (seeds : List Seed) : (seedArm arm seeds : Exec σ _).Seats p p := by
  unfold seedArm
  dsimp only
  split
  · exact seats_pure _
  · split
    · refine seats_bind seats_executor fun _ ↦ ?_
      split
      · exact seats_bind (seats_onBranch _ (seats_terminateWith _ _) (fun h ↦ h) fun _ ↦ trivial) fun _ ↦
          seats_pure _
      · exact seats_pure _
    · split
      · exact seats_bind seats_state fun _ ↦ seats_bind (seats_pure _) fun _ ↦
          seats_bind (seats_setSeeds _ _) fun _ ↦ seats_pure _
      · exact seats_bind (seats_pure _) fun _ ↦ seats_bind (seats_setSeeds _ _) fun _ ↦ seats_pure _

theorem seats_seedArms (conditions : List Expr) (arms : List (Option Branch)) :
    (seedArms conditions arms : Exec σ _).Seats p p := by
  have harm (seed : Seed) : (armOf conditions seed : Exec σ Nat).Seats p p := by
    unfold armOf
    split
    · exact seats_pure _
    · exact seats_draw _
  refine seats_bind seats_seeds? fun seeds ↦ ?_
  split
  · exact seats_pure _
  · refine seats_bind seats_state fun _ ↦ seats_bind (seats_dropSeeds _) fun _ ↦ ?_
    refine seats_bind (seats_mapM fun seed _ ↦ seats_bind (harm seed) fun _ ↦ seats_pure _) fun placed ↦ ?_
    exact seats_mapM fun q _ ↦ seats_seedArm q.1 _

end Exec

/-! ## Threads of arms -/

/-- A state with one of these names says of waiting what `s` says. -/
def State.Echoes (s : State) (ids : List StateId) (s' : State) : Prop := s'.id ∈ ids → s.SameWaits s'

theorem State.carried_echoes {n : StateId} {ids : List StateId} (h : ∀ id ∈ ids, id < n) :
    Carried n (s.Echoes ids) where
  same _ _ hs hsame hid hmem := (hs (hid ▸ hmem)).trans hsame
  copy _ s' _ _ hle hmem := absurd (h s'.id hmem) (Nat.not_lt.2 hle)

namespace Focus

theorem Seated.id_eq_name (hf : f.Seated held) (hs : f.stateAt? b = some s) : s.id = b.name f.state.id := by
  cases b with
  | current => rw [← Option.some.inj hs, Branch.name]
  | forked id => exact hf.named id s hs

theorem Fans.name_lt (h : f.Fans held arms g) (hb : b ∈ arms) : b.name f.state.id < g.executor.nextStateId := by
  obtain ⟨s, hs, -⟩ := h.places b hb
  rw [← h.follows.id_eq, ← h.follows.seated.id_eq_name hs]
  refine h.follows.seated.id_lt s ?_
  cases b with
  | current => exact .inl (Option.some.inj hs).symm
  | forked id => exact .inr (.inr ⟨id, hs⟩)

theorem Fans.everywhere (h : f.Fans held arms g) :
    g.Everywhere g.executor.nextStateId (f.state.Echoes (arms.map (·.name f.state.id))) := by
  refine ⟨fun _ ↦ ?_, fun id s hs hmem ↦ ?_, Nat.le_refl _⟩
  · obtain ⟨s, hs, -, hsame⟩ := h.places .current h.current
    exact Option.some.inj hs ▸ hsame
  · obtain ⟨b, hb, hname⟩ := List.mem_map.1 hmem
    obtain ⟨s', hs', -, hsame⟩ := h.places b hb
    cases b with
    | current => exact absurd (hname.symm.trans h.follows.id_eq.symm) (h.follows.seated.ne_of_live hs)
    | forked id' =>
      have hid : id' = id := hname.trans (h.follows.seated.named id s hs)
      rw [hid] at hs'
      exact Option.some.inj (hs'.symm.trans hs) ▸ hsame

end Focus

namespace Exec

theorem ends_branch_echoes (hf : f.Seated held) (hfirm : f.Firm) (conditions : List Expr) :
    (branch conditions).Ends (· ≠ .misuse) f fun r g ↦ (f.Follows held g ∧ g.Firm) ∧ ∀ l, r = .ok l →
      ∃ n ids, (∀ id ∈ ids, id < n) ∧ g.Everywhere n (f.state.Echoes ids) ∧
        ∀ o ∈ l, ∀ b, o = some b → b.name f.state.id ∈ ids := by
  unfold branch
  split
  · refine ends_pure ⟨⟨.refl hf, hfirm⟩, ?_⟩
    rintro _ ⟨⟩
    exact ⟨0, [], nofun, ⟨nofun, nofun, Nat.zero_le _⟩, nofun⟩
  · refine ends_bind (ends_arms_fans hf hfirm _) ?_ ?_
    · rintro l g ⟨_, ⟨⟩, arms, hg, hl⟩
      have hlt : ∀ id ∈ arms.map (·.name f.state.id), id < g.executor.nextStateId := by
        intro id hid
        obtain ⟨b, hb, rfl⟩ := List.mem_map.1 hid
        exact hg.name_lt hb
      have hcarried := State.carried_echoes (s := f.state) hlt
      refine (Ends.and (P := fun _ k ↦ g.Follows held k ∧ (True → k.Firm)) ?_ ((?_ : Maintains
        g.executor.nextStateId (f.state.Echoes (arms.map (·.name f.state.id))) _ fun l' ↦
          ∀ o ∈ l', ∀ b, o = some b → some b ∈ l) g hg.everywhere)).mono ?_
      · refine seats_bind (seats_seedArms conditions l) (fun l ↦
          seats_bind (seats_forIn fun q _ _ ↦ ?_) fun _ ↦ seats_pure _) held g hg.follows.seated fun _ ↦ hg.firm
        exact seats_bind (seats_onSide q.1 (seats_addConstraint q.2) (fun h ↦ h) fun h ↦ h) fun _ ↦ seats_pure _
      · refine maintains_bind (maintains_seedArms conditions l) fun l hl ↦
          maintains_bind (maintains_forIn fun q _ ↦ ?_) fun _ _ ↦ maintains_pure hl
        exact maintains_bind (maintains_onSide q.1 (maintains_addConstraint q.2)) fun _ _ ↦ maintains_pure rfl
      rintro r k ⟨⟨hfollows, hfirm⟩, heverywhere, hresult, -⟩
      refine ⟨⟨hg.follows.trans hfollows, hfirm trivial⟩, fun l' hl' ↦ ⟨_, _, hlt, heverywhere, ?_⟩⟩
      exact fun o ho b hb ↦ List.mem_map_of_mem (hl b (hresult l' hl' o ho b hb))
    · rintro _ _ ⟨_, ⟨⟩, -⟩

theorem seats_branch (conditions : List Expr) : (branch conditions : Exec σ _).Seats True True :=
  fun _ _ hf hfirm ↦ (ends_branch_echoes hf (hfirm trivial) conditions).mono fun _ _ h ↦ ⟨h.1.1, fun _ ↦ h.1.2⟩

/-! ## Schedules -/

theorem seatsWhere_switchTo (thread : ThreadId) (preempts : Bool) :
    (switchTo thread preempts : Exec σ Unit).SeatsWhere (·.Runs thread) True := by
  intro held f hf hfirm hruns
  refine ends_updateState ((State.fair_scheduleNext _ (by exact hruns)).mono fun s hs ↦ ?_)
  have hbeside : f.state.Beside s := ⟨hs.id_eq, hs.node_eq, fun h ↦ hs.apart ⟨h.nodup, h.id_lt⟩⟩
  exact ⟨.withState hf hbeside, fun _ ↦ hbeside.sits hfirm⟩

theorem ends_switches {n : StateId} {ids : List StateId} [Carried n (s.Echoes ids)]
    {l : List (Option Branch × ThreadId)} (preempts : ThreadId → Bool) (hg : g.Seated held) (hfirm : g.Firm)
    (heverywhere : g.Everywhere n (s.Echoes ids))
    (hl : ∀ q ∈ l, s.Runs q.2 ∧ ∀ b, q.1 = some b → b.name g.state.id ∈ ids) :
    (forIn l PUnit.unit fun (arm, thread) _ ↦ do
      onSide arm (switchTo thread (preempts thread))
      pure (ForInStep.yield PUnit.unit) : Exec σ PUnit).Ends (· ≠ .misuse) g fun _ k ↦
        g.Follows held k ∧ (True → k.Firm) := by
  induction l generalizing g with
  | nil => exact ends_pure ⟨.refl hg, fun _ ↦ hfirm⟩
  | cons q l ih =>
    rw [List.forall_mem_cons] at hl
    have hruns (b : Branch) (s' : State) (hb : q.1 = some b) (hs' : g.stateAt? b = some s') : s'.Runs q.2 := by
      refine State.SameWaits.runs ?_ hl.1.1
      have hmem : s'.id ∈ ids := hg.id_eq_name hs' ▸ hl.1.2 b hb
      cases b with
      | current => exact heverywhere.state (Option.some.inj hs' ▸ hmem) |> fun h ↦ Option.some.inj hs' ▸ h
      | forked id => exact heverywhere.states id s' hs' hmem
    have hseats := ends_onSide_seated hg hruns (seatsWhere_switchTo q.2 (preempts q.2)) (fun _ : True ↦ hfirm) id
    have hmaintains := maintains_onSide q.1 (maintains_switchTo q.2 (preempts q.2)) g heverywhere
    rw [List.forIn_cons]
    refine ends_bind (P := fun r k ↦ (∀ v, r = .ok v → v = .yield ⟨⟩) ∧ g.Follows held k ∧ (True → k.Firm) ∧
      k.Everywhere n (s.Echoes ids)) ?_ ?_ fun _ _ h ↦ ⟨h.2.1, h.2.2.1⟩
    · refine ends_bind (hseats.and hmaintains) ?_ ?_
      · rintro ⟨⟩ k ⟨⟨hfollows, hfirm⟩, heverywhere, -⟩
        exact ends_pure ⟨by rintro _ ⟨⟩; rfl, hfollows, hfirm, heverywhere⟩
      · rintro e k ⟨⟨hfollows, hfirm⟩, heverywhere, -⟩
        exact ⟨nofun, hfollows, hfirm, heverywhere⟩
    · rintro v k ⟨hv, hfollows, hfirm, heverywhere⟩
      obtain rfl := hv v rfl
      refine (ih hfollows.seated (hfirm trivial) heverywhere ?_).mono fun _ _ h ↦ ⟨hfollows.trans h.1, h.2⟩
      exact hfollows.id_eq ▸ hl.2

theorem seats_schedule (yields : Bool) : (schedule yields : Exec σ Unit).Seats True True := by
  intro held f hf hfirm
  have hown : f.state.Apart := hf.apart f.state (.inl rfl)
  have hswitch {thread : ThreadId} (hruns : f.state.Runs thread) := seatsWhere_switchTo thread false held f hf
    (hfirm trivial) hruns
  refine ends_bind_ok rfl (ends_bind_ok rfl ?_)
  dsimp only
  split
  · exact seats_fail_bind _ held f hf hfirm
  · split
    · refine ends_bind (ends_branch_echoes hf (hfirm trivial) _) ?_ fun _ _ h ↦ ⟨h.1.1, fun _ ↦ h.1.2⟩
      rintro l g ⟨⟨hfollows, hfirm⟩, hl⟩
      obtain ⟨n, ids, hlt, heverywhere, hnames⟩ := hl l rfl
      have hcarried := State.carried_echoes (s := f.state) hlt
      let preempts (thread : ThreadId) := f.state.enabledThreads.contains f.state.current && thread != f.state.current
      refine ends_bind (P := fun _ k ↦ f.Follows held k ∧ (True → k.Firm)) ?_ (fun _ _ h ↦ ends_pure h) fun _ _ h ↦ h
      refine (ends_switches preempts hfollows.seated hfirm heverywhere fun q hq ↦ ?_).mono fun _ _ h ↦
        ⟨hfollows.trans h.1, h.2⟩
      have hmem := List.of_mem_zip hq
      exact ⟨hown.runs_of_mem hmem.2, fun b hb ↦ hfollows.id_eq ▸ hnames _ hmem.1 b hb⟩
    · split
      · rename_i hgoes
        exact hswitch (hown.runs_of_mem (by simpa using hgoes.1))
      · split
        · exact seats_fail _ held f hf hfirm
        · exact hswitch (hown.runs_of_nextThread ‹_›)

end Exec

end Symex
