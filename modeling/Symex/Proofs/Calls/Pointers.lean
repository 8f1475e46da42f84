import Mathlib.Data.List.Nodup
import Symex.Proofs.Calls.Host

namespace Symex

open Checked

variable {σ : Type} {I : Inputs} {F : Fault → Prop} {a : Assignment}

/-! ## Functions at addresses -/

namespace Program

variable {program : Program} {address : Nat} {id : FunctionId} {callee : Function}

theorem functionAt?_eq_some :
    program.functionAt? address = some id ↔ id < program.functions.size ∧ id.address = address := by
  have hbase : functionRegionBase = 0x1000 := rfl
  have hstride : functionStride = 0x10 := rfl
  -- an address is that of the number of strides from the first one to it
  have hstrides : ∀ n : Nat, functionRegionBase + n * functionStride = address ↔
      ¬address < functionRegionBase ∧ (address - functionRegionBase) % functionStride = 0 ∧
        (address - functionRegionBase) / functionStride = n := by
    intro n
    rw [hbase, hstride]
    omega
  unfold functionAt? FunctionId.address
  rw [hstrides id]
  dsimp only
  by_cases hlow : address < functionRegionBase
  · rw [if_pos hlow]
    simp [hlow]
  · rw [if_neg hlow]
    constructor
    · intro h
      obtain ⟨⟨hstride, hlt⟩, hid⟩ := Option.ite_none_right_eq_some.1 h
      obtain rfl := Option.some.inj hid
      exact ⟨hlt, hlow, hstride, rfl⟩
    · rintro ⟨hlt, -, hstride, rfl⟩
      exact if_pos ⟨hstride, hlt⟩

theorem function_eq_ok : program.function id = .ok callee ↔ program.functions[id]? = some callee := by
  unfold function
  cases h : program.functions[id]? with
  | none => simp
  | some f => simp

end Program

theorem Focus.result_succ_iff {g f f' : Focus σ} {b : Branch}
    (hle : g.executor.nextStateId ≤ f.executor.nextStateId)
    (hnext : f'.executor.nextStateId = f.executor.nextStateId + 1) :
    g.Result f' b ↔ g.Result f b ∨ b = .forked f.executor.nextStateId := by
  cases b with
  | current => simp [Result]
  | forked id =>
    simp only [Result, hnext, Branch.forked.injEq]
    constructor
    · rintro ⟨hfrom, hlt⟩
      obtain hlt | rfl := Nat.lt_succ_iff_lt_or_eq.1 hlt
      · exact .inl ⟨hfrom, hlt⟩
      · exact .inr rfl
    · rintro (⟨hfrom, hlt⟩ | rfl)
      · exact ⟨hfrom, Nat.lt_succ_of_lt hlt⟩
      · exact ⟨hle, Nat.lt_succ_self _⟩

namespace Exec

variable {g h f f' : Focus σ} {p : Expr} {arguments : List Expr} {destination : Option Register} {b : Branch}
  {s : State} {v address : Nat}

/-- What becomes of the solutions `S` of a state that calls the function at an address: the error that ends the
state, if one does, and the state. -/
inductive CallOutcome (I : Inputs) (g : Focus σ) (arguments : List Expr) (destination : Option Register)
    (S : Assignment → Prop) (address : Nat) : Option ExecError → State → Prop
  /-- No function has the address. -/
  | invalid {s : State}
    (hnone : ∀ (id : FunctionId) callee, g.executor.program.functions[id]? = some callee → id.address ≠ address)
    (hsolves : ∀ a, I.Solves a s.constraints ↔ S a) :
    CallOutcome I g arguments destination S address (some .invalidFunctionPointer) s
  /-- A function of the program is entered. -/
  | entered {s : State} {id : FunctionId} {callee : Function} {blocks : Array Block}
    (hcallee : g.executor.program.functions[id]? = some callee) (haddress : id.address = address)
    (hbody : callee.body = .defined blocks) (hsolves : ∀ a, I.Solves a s.constraints ↔ S a)
    (hentered : g.entryError? callee arguments = none →
      g.state.Entered id callee ⟨g.executor.location, destination⟩ arguments s) :
    CallOutcome I g arguments destination S address (g.entryError? callee arguments) s
  /-- A function of the host is called. -/
  | called {s : State} {id : FunctionId} {callee : Function} {width : Option Nat} {error : Option ExecError}
    (hcallee : g.executor.program.functions[id]? = some callee) (haddress : id.address = address)
    (hbody : callee.body = .external width)
    (houtcome : HostOutcome I g callee.name width arguments destination S error s) :
    CallOutcome I g arguments destination S address error s

theorem tries_callAddress (hcallable : Callable g arguments destination) (hpart : g.Portion I h)
    (hunrestrained : g.executor.Unrestrained I) :
    (callAddress address arguments destination).Tries I F h
      (CallOutcome I g arguments destination (I.Solves · h.state.constraints) address) := by
  refine ends_bind_ok rfl ?_
  rw [hpart.continues.program_eq]
  cases hid : g.executor.program.functionAt? address with
  | none =>
    refine ends_fail (exists_refused hcallable hpart hpart.tried hpart.data.threads_eq hpart.data.current_eq
      (by decide) (.invalid (fun id callee hcallee haddress ↦ ?_) fun _ ↦ .rfl))
    obtain ⟨hlt, -⟩ := Array.getElem?_eq_some_iff.1 hcallee
    rw [Program.functionAt?_eq_some.2 ⟨hlt, haddress⟩] at hid
    cases hid
  | some id =>
    obtain ⟨hlt, haddress⟩ := Program.functionAt?_eq_some.1 hid
    have hcallee := Array.getElem?_eq_getElem hlt
    generalize g.executor.program.functions[id] = callee at hcallee
    refine ends_bind_ok rfl ?_
    rw [hpart.continues.program_eq]
    refine ends_seq (ends_lift (Checked.ends_of_eq (Program.function_eq_ok.2 hcallee) ?_))
    dsimp only
    cases hbody : callee.body with
    | external width =>
      refine Tries.mono (tries_callHost hcallable hpart hunrestrained fun w hw ↦ ?_) fun error s houtcome ↦
        .called hcallee haddress hbody houtcome
      exact hcallable.widths callee (Array.mem_of_getElem? hcallee) w (hw ▸ hbody)
    | defined blocks =>
      have hdefined : callee.isExternal = false := by rw [Function.isExternal, hbody]
      exact tries_enter hcallable hpart (Program.parameters_le hcallable.program hcallee hdefined)
        fun s hs hentered ↦ .entered hcallee haddress hbody (fun _ ↦ by rw [hs]) hentered

/-! ## One value after the other -/

/-- A call through a pointer can be made in the state in focus, and the machine may go into every case. -/
structure Dispatchable (I : Inputs) (g : Focus σ) (p : Expr) (arguments : List Expr)
    (destination : Option Register) : Prop extends Callable g arguments destination where
  unrestrained : g.executor.Unrestrained I
  maxResolutions : g.executor.config.maxResolutions = 0
  ready : g.Ready I .current g.state
  id_lt : g.state.id < g.executor.nextStateId
  removed_lt : ∀ id ∈ g.executor.removed, id < g.executor.nextStateId
  address : p.IsAddress

/-- The solutions of the state in focus for which a pointer has a value. -/
def Targets (I : Inputs) (g : Focus σ) (p : Expr) (v : Nat) (a : Assignment) : Prop :=
  I.Solves a g.state.constraints ∧ a.val p = v

/-- The state at a place made the call for a value of the pointer. -/
structure Settled (I : Inputs) (g f : Focus σ) (p : Expr) (arguments : List Expr) (destination : Option Register)
    (v : Nat) (b : Branch) (s : State) : Prop where
  at_eq : f.stateAt? b = some s
  id_eq : s.id = b.idFrom g.state.id
  outcome : ∃ error, g.Ended f s error ∧ CallOutcome I g arguments destination (Targets I g p v) v error s

/-- The solutions of the state in focus are divided by values of a pointer. Those for a value in `parts` have
the place next to it, and all others have the rest. -/
structure Parted (I : Inputs) (g : Focus σ) (p : Expr) (parts : List (Nat × Branch)) (rest : Option Branch)
    (f : Focus σ) : Prop where
  continues : g.executor.Continues f.executor
  removed_lt : ∀ id ∈ f.executor.removed, id < f.executor.nextStateId
  values_nodup : (parts.map Prod.fst).Nodup
  places_nodup : (parts.map Prod.snd ++ rest.toList).Nodup
  result_iff : ∀ b, g.Result f b ↔ b ∈ parts.map Prod.snd ++ rest.toList
  feasible : ∀ q ∈ parts, ∃ a, Targets I g p q.1 a
  untouched : ∀ b, rest = some b → ∃ s, Untouched I g f b s ∧
    ∀ a, I.Solves a s.constraints ↔ I.Solves a g.state.constraints ∧ a.val p ∉ parts.map Prod.fst
  complete : rest = none → ∀ a, I.Solves a g.state.constraints → a.val p ∈ parts.map Prod.fst

/-- The state at a place has the solutions for a value of the pointer, and did not make its call. -/
structure Waiting (I : Inputs) (g f : Focus σ) (p : Expr) (v : Nat) (b : Branch) (s : State) : Prop
    extends Untouched I g f b s where
  solves_iff : ∀ a, I.Solves a s.constraints ↔ Targets I g p v a

section

variable {parts : List (Nat × Branch)} {rest : Option Branch} {s₁ s₂ : State} {condition : Expr}

theorem parted_nil (h : Dispatchable I g p arguments destination) : Parted I g p [] (some .current) g where
  continues := .refl _
  removed_lt := h.removed_lt
  values_nodup := by simp
  places_nodup := by simp
  result_iff b := by
    cases b with
    | current => simp [Focus.Result]
    | forked id => simp [Focus.Result]
  feasible := by simp
  untouched := by
    rintro _ ⟨⟩
    exact ⟨g.state, ⟨trivial, h.ready, rfl, .refl _⟩, by simp⟩
  complete := by simp

theorem Parted.place_ne (h : Parted I g p parts (some b) f) {q : Nat × Branch} (hq : q ∈ parts) : q.2 ≠ b := by
  rintro rfl
  have hdisjoint := (List.nodup_append.1 h.places_nodup).2.2
  exact hdisjoint _ (List.mem_map_of_mem hq) _ (by simp) rfl

theorem Parted.waiting_ne (h : Parted I g p (parts ++ [(v, b)]) rest f) {q : Nat × Branch} (hq : q ∈ parts) :
    q.2 ≠ b := by
  rintro rfl
  have hnodup := (List.nodup_append.1 h.places_nodup).1
  rw [List.map_append, List.map_singleton] at hnodup
  have hdisjoint := (List.nodup_append.1 hnodup).2.2
  exact hdisjoint _ (List.mem_map_of_mem hq) _ (by simp) rfl

theorem Parted.result (h : Parted I g p parts rest f) {q : Nat × Branch} (hq : q ∈ parts) : g.Result f q.2 :=
  (h.result_iff _).2 (List.mem_append_left _ (List.mem_map_of_mem hq))

theorem Parted.advanced (hid : g.state.id < g.executor.nextStateId) (h : Parted I g p parts rest f)
    (hc : Untouched I g f b s) (hw : f.Worked b s.id f') (hu : f.Unforked f')
    (hrest : ∀ b', rest = some b' → ∀ s', Untouched I g f b' s' → Untouched I g f' b' s') :
    Parted I g p parts rest f' where
  continues := h.continues.trans hw.continues
  removed_lt := hc.worked_removed_lt hid h.continues.next_le h.removed_lt hw
  values_nodup := h.values_nodup
  places_nodup := h.places_nodup
  result_iff b' := by
    rw [← h.result_iff]
    exact ⟨fun hb' ↦ hb'.of_eq hu.nextStateId_eq.symm, fun hb' ↦ hb'.of_eq hu.nextStateId_eq⟩
  feasible := h.feasible
  untouched b' hb' := by
    obtain ⟨s', hc', hsolves⟩ := h.untouched b' hb'
    exact ⟨s', hrest b' hb' s' hc', hsolves⟩
  complete := h.complete

theorem solves_and_iff_targets
    (hsolves : ∀ a, I.Solves a s.constraints ↔ I.Solves a g.state.constraints ∧ a.val p ∉ parts.map Prod.fst)
    (hv : ∃ a, I.Solves a s.constraints ∧ a.val p = v) :
    I.Solves a s.constraints ∧ a.val p = v ↔ Targets I g p v a := by
  obtain ⟨a₀, ha₀, rfl⟩ := hv
  obtain ⟨-, hnew⟩ := (hsolves a₀).1 ha₀
  constructor
  · rintro ⟨ha, heq⟩
    exact ⟨((hsolves a).1 ha).1, heq⟩
  · rintro ⟨ha, heq⟩
    exact ⟨(hsolves a).2 ⟨ha, heq ▸ hnew⟩, heq⟩

theorem Parted.nodup_append (h : Parted I g p parts rest f)
    (hsolves : ∀ a, I.Solves a s.constraints ↔ I.Solves a g.state.constraints ∧ a.val p ∉ parts.map Prod.fst)
    (hv : ∃ a, I.Solves a s.constraints ∧ a.val p = v) (b : Branch) :
    ((parts ++ [(v, b)]).map Prod.fst).Nodup ∧ ∀ q ∈ parts ++ [(v, b)], ∃ a, Targets I g p q.1 a := by
  obtain ⟨a, ha, rfl⟩ := hv
  obtain ⟨ha, hnew⟩ := (hsolves a).1 ha
  constructor
  · rw [List.map_append, List.map_singleton]
    exact h.values_nodup.append (List.nodup_singleton _) (List.disjoint_singleton.2 hnew)
  · exact List.forall_mem_append.2 ⟨h.feasible, by simpa using ⟨a, ha, rfl⟩⟩

theorem Parted.last (hid : g.state.id < g.executor.nextStateId) (h : Parted I g p parts (some b) f)
    (hc : Untouched I g f b s) (hw : f.Worked b s.id f') (hu : f.Unforked f')
    (hsolves : ∀ a, I.Solves a s.constraints ↔ I.Solves a g.state.constraints ∧ a.val p ∉ parts.map Prod.fst)
    (hv : ∃ a, I.Solves a s.constraints ∧ a.val p = v) (hall : ∀ a, I.Solves a s.constraints → a.val p = v) :
    Parted I g p (parts ++ [(v, b)]) none f' where
  continues := h.continues.trans hw.continues
  removed_lt := hc.worked_removed_lt hid h.continues.next_le h.removed_lt hw
  values_nodup := (h.nodup_append hsolves hv b).1
  places_nodup := by simpa using h.places_nodup
  result_iff b' := by
    have hresult : g.Result f' b' ↔ g.Result f b' :=
      ⟨fun hb' ↦ hb'.of_eq hu.nextStateId_eq.symm, fun hb' ↦ hb'.of_eq hu.nextStateId_eq⟩
    rw [hresult, h.result_iff]
    simp
  feasible := (h.nodup_append hsolves hv b).2
  untouched := by simp
  complete _ a ha := by
    by_cases hold : a.val p ∈ parts.map Prod.fst
    · simp [hold]
    · simp [hall a ((hsolves a).2 ⟨ha, hold⟩)]

theorem Parted.split (hid : g.state.id < g.executor.nextStateId) (h : Parted I g p parts (some b) f)
    (hc : Untouched I g f b s) (hw : f.Worked b s.id f')
    (hsolves : ∀ a, I.Solves a s.constraints ↔ I.Solves a g.state.constraints ∧ a.val p ∉ parts.map Prod.fst)
    (hv : ∃ a, I.Solves a s.constraints ∧ a.val p = v)
    (hnext : f'.executor.nextStateId = f.executor.nextStateId + 1)
    (hready : f'.Ready I (.forked f.executor.nextStateId) s₂) (hid₂ : s₂.id = f.executor.nextStateId)
    (hdata : s.SameData s₂)
    (h₂ : ∀ a, I.Solves a s₂.constraints ↔ I.Solves a s.constraints ∧ a.val p ≠ v) :
    Parted I g p (parts ++ [(v, b)]) (some (.forked f.executor.nextStateId)) f' where
  continues := h.continues.trans hw.continues
  removed_lt := hc.worked_removed_lt hid h.continues.next_le h.removed_lt hw
  values_nodup := (h.nodup_append hsolves hv b).1
  places_nodup := by
    have hold := h.places_nodup
    have hnew : .forked f.executor.nextStateId ∉ parts.map Prod.snd ++ [b] := by
      intro hmem
      exact Nat.lt_irrefl _ ((h.result_iff _).2 hmem).2
    rw [List.map_append, List.map_singleton]
    exact hold.append (List.nodup_singleton _) (List.disjoint_singleton.2 hnew)
  result_iff b' := by
    rw [Focus.result_succ_iff h.continues.next_le hnext, h.result_iff]
    simp [or_assoc]
  feasible := (h.nodup_append hsolves hv b).2
  untouched := by
    rintro _ ⟨⟩
    refine ⟨s₂, ⟨⟨h.continues.next_le, hnext ▸ Nat.lt_succ_self _⟩, hready, hid₂, hc.data.trans hdata⟩, fun a ↦ ?_⟩
    rw [h₂, hsolves, List.map_append, List.mem_append, not_or, List.map_singleton, List.mem_singleton, and_assoc]
  complete := by simp

theorem Settled.worked (h : Settled I g f p arguments destination v b s) {b' : Branch} {id : StateId}
    (hgiven : f.Given b) (hw : f.Worked b' id f') (hne : b ≠ b') (hid : s.id ≠ id) :
    Settled I g f' p arguments destination v b s where
  at_eq := (hw.stateAt?_eq b hne hgiven).trans h.at_eq
  id_eq := h.id_eq
  outcome := by
    obtain ⟨error, hended, houtcome⟩ := h.outcome
    refine ⟨error, ?_, houtcome⟩
    cases error with
    | none => exact fun hmem ↦ (hw.removed _ hmem).elim hended hid
    | some e => exact ⟨hw.continues.removed _ hended.1, hended.2.after hw.continues⟩

def AllSettled (I : Inputs) (g f : Focus σ) (p : Expr) (arguments : List Expr) (destination : Option Register)
    (parts : List (Nat × Branch)) : Prop :=
  ∀ q ∈ parts, ∃ s, Settled I g f p arguments destination q.1 q.2 s

theorem AllSettled.worked (h : AllSettled I g f p arguments destination parts)
    (hid : g.state.id < g.executor.nextStateId) (hresult : ∀ q ∈ parts, g.Result f q.2)
    (hc : Untouched I g f b s) (hw : f.Worked b s.id f') (hne : ∀ q ∈ parts, q.2 ≠ b) :
    AllSettled I g f' p arguments destination parts := by
  intro q hq
  obtain ⟨s', hs'⟩ := h q hq
  refine ⟨s', hs'.worked (hresult q hq).given hw (hne q hq) ?_⟩
  rw [hs'.id_eq, hc.id_eq]
  exact hc.result.idFrom_ne hid (hresult q hq) (hne q hq)

end

section

variable {parts : List (Nat × Branch)} {rest : Option Branch}
  (hd : Dispatchable I g p arguments destination)
include hd

theorem ends_onSide_callAddress (hparted : Parted I g p (parts ++ [(v, b)]) rest f)
    (hsettled : AllSettled I g f p arguments destination parts) (hwaiting : Waiting I g f p v b s) :
    (onSide (some b) (callAddress v arguments destination)).Ends F f fun r f' ↦ r = .ok () ∧
      Parted I g p (parts ++ [(v, b)]) rest f' ∧
        AllSettled I g f' p arguments destination (parts ++ [(v, b)]) := by
  have hready := hwaiting.ready
  have hpart : g.Portion I (f.view b s) :=
    ⟨hparted.continues.view b s, hwaiting.data, hready.valid, hready.satisfiable⟩
  have htargets : (I.Solves · s.constraints) = Targets I g p v :=
    funext fun a ↦ propext (hwaiting.solves_iff a)
  have hrest : rest ≠ some b := by
    rintro rfl
    exact hparted.place_ne (q := (v, b)) (by simp) rfl
  refine ends_bind (ends_onBranch_tries hready (hd.unrestrained.continues hparted.continues).exact
    (tries_callAddress hd.toCallable hpart hd.unrestrained)) (fun _ f' hf' ↦ ends_pure ⟨rfl, ?_⟩) ?_
  · obtain ⟨-, hw, hu, error, s', hat, hid, hended, houtcome⟩ := hf'
    have hc := hwaiting.toUntouched
    have hothers := hsettled.worked hd.id_lt (fun q hq ↦ hparted.result (List.mem_append_left _ hq)) hc hw
      fun q hq ↦ hparted.waiting_ne hq
    have hhere : Settled I g f' p arguments destination v b s' :=
      ⟨hat, hid.trans hc.id_eq, error, hended.before hparted.continues, htargets ▸ houtcome⟩
    have hparted' : Parted I g p (parts ++ [(v, b)]) rest f' := hparted.advanced hd.id_lt hc hw hu
      fun b' hb' s' hc' ↦ hc'.kept hc hd.id_lt hw hu fun heq ↦ hrest (heq ▸ hb')
    refine ⟨hparted', List.forall_mem_append.2 ⟨hothers, ?_⟩⟩
    simpa using ⟨s', hhere⟩
  · rintro _ _ ⟨⟨_, ⟨⟩⟩, -⟩

theorem Parted.length_lt (hparted : Parted I g p parts (some b) f) : parts.length < wordLimit := by
  obtain ⟨s, hc, hsolves⟩ := hparted.untouched b rfl
  obtain ⟨a, ha⟩ := hc.ready.satisfiable
  obtain ⟨ha, hnew⟩ := (hsolves a).1 ha
  have hlt : ∀ {a : Assignment}, a.free → a.val p < wordLimit := by
    intro a ha
    have hval := a.val_lt ha hd.address.wellFormed
    rwa [hd.address.width_eq, ← wordLimit_eq] at hval
  have hvalues : ∀ w ∈ a.val p :: parts.map Prod.fst, w ∈ List.range wordLimit := by
    refine List.forall_mem_cons.2 ⟨List.mem_range.2 (hlt ha.free), fun w hw ↦ ?_⟩
    obtain ⟨q, hq, rfl⟩ := List.mem_map.1 hw
    obtain ⟨a', ha', heq⟩ := hparted.feasible q hq
    exact List.mem_range.2 (heq ▸ hlt ha'.free)
  have hlength := (List.subperm_of_subset (List.nodup_cons.2 ⟨hnew, hparted.values_nodup⟩) hvalues).length_le
  rw [List.length_range, List.length_cons, List.length_map] at hlength
  exact hlength

theorem ends_callEach {fuel resolved : Nat} (hfuel : wordLimit ≤ fuel + parts.length)
    (hparted : Parted I g p parts rest f) (hsettled : AllSettled I g f p arguments destination parts) :
    (callEach p arguments destination fuel resolved rest).Ends F f fun r f' ↦ r = .ok () ∧
      ∃ parts, Parted I g p parts none f' ∧ AllSettled I g f' p arguments destination parts := by
  induction fuel generalizing resolved parts rest f with
  | zero =>
    cases rest with
    | none => exact ends_pure ⟨rfl, parts, hparted, hsettled⟩
    | some b =>
      have hlt := hparted.length_lt hd
      omega
  | succ fuel ih =>
    cases rest with
    | none => exact ends_pure ⟨rfl, parts, hparted, hsettled⟩
    | some b =>
      obtain ⟨s, hc, hsolves⟩ := hparted.untouched b rfl
      have hunrestrained := hd.unrestrained.continues hparted.continues
      have hlimit : f.executor.config.maxResolutions = 0 :=
        (congrArg Config.maxResolutions hparted.continues.config_eq).trans hd.maxResolutions
      rw [callEach]
      refine ends_bind_ok rfl ?_
      dsimp only
      rw [if_neg (fun h ↦ h.1 hlimit)]
      refine ends_seq (ends_onBranch_query hc.ready hunrestrained.exact
        (Solver.answers_value hc.ready.valid hc.ready.satisfiable hd.address.wellFormed) ?_)
      intro value f₁ hvalue hw hu hready
      obtain ⟨v, hv, hattained⟩ := hvalue.exists_value
      have hc₁ : Untouched I g f₁ b s := ⟨hc.result.of_eq hu.nextStateId_eq, hready, hc.id_eq, hc.data⟩
      have hparted₁ : Parted I g p parts (some b) f₁ := hparted.advanced hd.id_lt hc hw hu fun b' hb' s' hc' ↦ by
        obtain rfl := Option.some.inj hb'
        obtain rfl := Option.some.inj (hc'.ready.at_eq.symm.trans hc.ready.at_eq)
        exact hc₁
      have hsettled₁ := hsettled.worked hd.id_lt (fun q hq ↦ hparted.result hq) hc hw
        fun q hq ↦ hparted.place_ne hq
      -- what is left to do once the state for the value is there
      have hgo : ∀ {rest : Option Branch} {s' : State} {f₂ : Focus σ},
          Parted I g p (parts ++ [(v, b)]) rest f₂ → AllSettled I g f₂ p arguments destination parts →
          Waiting I g f₂ p v b s' → (do
            onSide (some b) (callAddress (value.value?.getD 0) arguments destination)
            callEach p arguments destination fuel (resolved + 1) rest : Exec σ Unit).Ends F f₂ fun r f' ↦
              r = .ok () ∧ ∃ parts, Parted I g p parts none f' ∧
                AllSettled I g f' p arguments destination parts := by
        intro rest s' f₂ hparted₂ hsettled₂ hwaiting
        rw [hv, Option.getD_some]
        refine ends_bind (ends_onSide_callAddress hd hparted₂ hsettled₂ hwaiting) (fun _ f₃ hf₃ ↦ ?_) ?_
        · refine ih ?_ hf₃.2.1 hf₃.2.2
          rw [List.length_append, List.length_singleton]
          omega
        · rintro _ _ ⟨⟨⟩, -⟩
      obtain ⟨condition, hcondition, hmeans⟩ :=
        Expr.exists_mkEq hd.address.wellFormed hvalue.wellFormed hvalue.width_eq.symm
      have hiff : ∀ {a : Assignment}, a.free → (a.val condition ≠ 0 ↔ a.val p = v) := fun {a} ha ↦ by
        rw [hmeans.val_iff ha, a.val_of_value? hv]
      dsimp only
      refine ends_seq (ends_lift (Checked.ends_of_eq hcondition ?_))
      refine ends_seq (ends_forkOn hready (hd.unrestrained.continues hparted₁.continues)
        (fun hmem ↦ Nat.lt_irrefl _ (hparted₁.removed_lt _ hmem)) hmeans.truth ?_ ?_ ?_)
      -- the pointer has no other value
      · intro f₂ hw₂ hu₂ hready₂ hall
        have hall' : ∀ a, I.Solves a s.constraints → a.val p = v := fun a ha ↦ (hiff ha.free).1 (hall a ha)
        refine hgo (hparted₁.last hd.id_lt hc₁ hw₂ hu₂ hsolves hattained hall')
          (hsettled₁.worked hd.id_lt (fun q hq ↦ hparted₁.result hq) hc₁ hw₂ fun q hq ↦ hparted₁.place_ne hq)
          ⟨⟨hc₁.result.of_eq hu₂.nextStateId_eq, hready₂, hc₁.id_eq, hc₁.data⟩, fun a ↦ ?_⟩
        rw [← solves_and_iff_targets hsolves hattained]
        exact ⟨fun ha ↦ ⟨ha, hall' a ha⟩, fun ha ↦ ha.1⟩
      -- it cannot be that no solution has the value that was found
      · intro _ _ _ _ hnone
        obtain ⟨a, ha, heq⟩ := hattained
        exact ((hiff ha.free).2 heq (hnone a ha)).elim
      · intro f₂ s₁ s₂ hw₂ hnext hready₁ hready₂ hid₁ hid₂ hdata₁ hdata₂ h₁ h₂
        refine hgo (hparted₁.split hd.id_lt hc₁ hw₂ hsolves hattained hnext hready₂ hid₂ hdata₂ fun a ↦ ?_)
          (hsettled₁.worked hd.id_lt (fun q hq ↦ hparted₁.result hq) hc₁ hw₂ fun q hq ↦ hparted₁.place_ne hq)
          ⟨⟨hc₁.result.succ hnext, hready₁, hid₁.trans hc₁.id_eq, hc₁.data.trans hdata₁⟩, fun a ↦ ?_⟩
        · rw [h₂]
          exact and_congr_right fun ha ↦ by rw [← not_iff_not, ne_eq, not_not, ← hiff ha.free]
        · rw [h₁, ← solves_and_iff_targets hsolves hattained]
          exact and_congr_right fun ha ↦ hiff ha.free

end

/-! ## Whole calls -/

section

variable {S : Assignment → Prop} {error : Option ExecError} {parts : List (Nat × Branch)}

theorem CallOutcome.of_solves (h : CallOutcome I g arguments destination S address error s)
    (ha : I.Solves a s.constraints) : S a := by
  cases h with
  | invalid _ hsolves => exact (hsolves a).1 ha
  | entered _ _ _ hsolves _ => exact (hsolves a).1 ha
  | called _ _ _ houtcome =>
    cases houtcome with
    | disallowed _ hsolves => exact (hsolves a).1 ha
    | unknown _ _ _ _ hsolves => exact (hsolves a).1 ha
    | called _ _ _ _ hsolves _ => exact ((hsolves a).1 ha).1

/-- Values may be chosen for the arguments of a function of the host, on which the solutions `S` do not
agree. -/
structure Chosen (g : Focus σ) (arguments : List Expr) (S : Assignment → Prop) (address : Nat) : Prop where
  config : g.executor.config.allowSymbolicExternalArguments = true
  external : ∃ (id : FunctionId) (callee : Function) (width : Option Nat),
    g.executor.program.functions[id]? = some callee ∧ id.address = address ∧ callee.body = .external width
  several : ∃ e ∈ arguments, ¬Determined S e

theorem CallOutcome.solves (h : CallOutcome I g arguments destination S address error s)
    (hchosen : ¬Chosen g arguments S address) (ha : S a) : I.Solves a s.constraints := by
  cases h with
  | invalid _ hsolves => exact (hsolves a).2 ha
  | entered _ _ _ hsolves _ => exact (hsolves a).2 ha
  | called hcallee haddress hbody houtcome =>
    cases houtcome with
    | disallowed _ hsolves => exact (hsolves a).2 ha
    | unknown _ _ _ _ hsolves => exact (hsolves a).2 ha
    | called _ _ hfixed hsatisfiable hsolves _ =>
      obtain ⟨a₀, ha₀⟩ := hsatisfiable
      obtain ⟨ha₀, rfl⟩ := (hsolves a₀).1 ha₀
      refine (hsolves a).2 ⟨ha, List.map_congr_left fun e he ↦ ?_⟩
      by_contra hne
      have hmany : ¬Determined S e := fun h ↦ hne (h a a₀ ha ha₀)
      obtain hconfig | hone := hfixed
      · exact hchosen ⟨hconfig, ⟨_, _, _, hcallee, haddress, hbody⟩, e, he, hmany⟩
      · exact hmany (hone e he)

/-- A solution leads to one state. It made the call of the function that the pointer points to, or ended
because it could not or because there is no such function. -/
structure Reaches (I : Inputs) (g f : Focus σ) (p : Expr) (arguments : List Expr) (destination : Option Register)
    (a : Assignment) (b : Branch) (s : State) : Prop where
  result : g.Result f b
  settled : Settled I g f p arguments destination (a.val p) b s
  solves : ¬Chosen g arguments (Targets I g p (a.val p)) (a.val p) → I.Solves a s.constraints
  only : ∀ b' s', g.Result f b' → f.stateAt? b' = some s' → I.Solves a s'.constraints → b' = b

theorem exists_place (h : (parts.map Prod.fst).Nodup) : ∃ place : Nat → Branch, ∀ q ∈ parts, place q.1 = q.2 := by
  induction parts with
  | nil => exact ⟨fun _ ↦ .current, by simp⟩
  | cons q parts ih =>
    rw [List.map_cons, List.nodup_cons] at h
    obtain ⟨place, hplace⟩ := ih h.2
    refine ⟨fun v ↦ if v = q.1 then q.2 else place v, List.forall_mem_cons.2 ⟨if_pos rfl, fun r hr ↦ ?_⟩⟩
    have hne : r.1 ≠ q.1 := fun heq ↦ h.1 (heq ▸ List.mem_map_of_mem hr)
    exact (if_neg hne).trans (hplace r hr)

theorem Parted.exists_value (h : Parted I g p parts none f) (ha : I.Solves a g.state.constraints) :
    ∃ q ∈ parts, q.1 = a.val p :=
  List.mem_map.1 (h.complete rfl a ha)

theorem Parted.exists_part (h : Parted I g p parts none f) (hb : g.Result f b) : ∃ q ∈ parts, q.2 = b := by
  have hmem := (h.result_iff b).1 hb
  rw [Option.toList_none, List.append_nil] at hmem
  exact List.mem_map.1 hmem

theorem Parted.reaches (h : Parted I g p parts none f) (hsettled : AllSettled I g f p arguments destination parts)
    {place : Nat → Branch} (hplace : ∀ q ∈ parts, place q.1 = q.2) (ha : I.Solves a g.state.constraints) :
    ∃ s, Reaches I g f p arguments destination a (place (a.val p)) s := by
  obtain ⟨q, hq, hvalue⟩ := h.exists_value ha
  obtain ⟨s, hs⟩ := hsettled q hq
  rw [← hvalue, hplace q hq]
  refine ⟨s, h.result hq, hvalue ▸ hs, fun hchosen ↦ ?_, fun b' s' hb' hat hsolves ↦ ?_⟩
  · obtain ⟨error, -, houtcome⟩ := hs.outcome
    exact houtcome.solves (hvalue ▸ hchosen) ⟨ha, hvalue.symm⟩
  · obtain ⟨r, hr, rfl⟩ := h.exists_part hb'
    obtain ⟨s'', hs''⟩ := hsettled r hr
    obtain rfl := Option.some.inj (hs''.at_eq.symm.trans hat)
    obtain ⟨error, -, houtcome⟩ := hs''.outcome
    have hvalue' : a.val p = r.1 := (houtcome.of_solves hsolves).2
    rw [← hplace r hr, ← hplace q hq, hvalue, hvalue']

end

/-- A call through a pointer divides the solutions of a state by the value of the pointer. Each value has a place
of its own, and there are no other places. A solution leads to the place for its value, and to no other one. The
state there made the call of the function with this address, or ended with an error because the call cannot be
made or because there is no such function. -/
theorem call_divides_solutions (hd : Dispatchable I g p arguments destination) :
    (callPointer p arguments destination).Returns g fun _ f ↦ ∃ place : Nat → Branch,
      (∀ a a', I.Solves a g.state.constraints → I.Solves a' g.state.constraints →
        place (a.val p) = place (a'.val p) → a.val p = a'.val p) ∧
      (∀ b, g.Result f b → ∃ a, I.Solves a g.state.constraints ∧ place (a.val p) = b) ∧
      ∀ a, I.Solves a g.state.constraints →
        ∃ s, Reaches I g f p arguments destination a (place (a.val p)) s := by
  have hloop : (callEach p arguments destination wordLimit 0 (some .current)).Ends (fun _ ↦ False) g _ :=
    ends_callEach hd (Nat.le_add_right _ _) (parted_nil hd) (by simp [AllSettled])
  refine returns_of_ends (hloop.mono fun r f h ↦ ?_)
  obtain ⟨rfl, parts, hparted, hsettled⟩ := h
  obtain ⟨place, hplace⟩ := exists_place hparted.values_nodup
  refine ⟨(), rfl, place, fun a a' ha ha' heq ↦ ?_, fun b hb ↦ ?_, fun a ha ↦ hparted.reaches hsettled hplace ha⟩
  · obtain ⟨q, hq, hvalue⟩ := hparted.exists_value ha
    obtain ⟨q', hq', hvalue'⟩ := hparted.exists_value ha'
    rw [← hvalue, ← hvalue', hplace q hq, hplace q' hq'] at heq
    have hnodup : (parts.map Prod.snd).Nodup := by simpa using hparted.places_nodup
    rw [← hvalue, ← hvalue', List.inj_on_of_nodup_map hnodup hq hq' heq]
  · obtain ⟨q, hq, rfl⟩ := hparted.exists_part hb
    obtain ⟨a, ha, hvalue⟩ := hparted.feasible q hq
    exact ⟨a, ha, by rw [hvalue, hplace q hq]⟩

/-- A program of two functions, of which the second one has a parameter. -/
def paired : Program where
  functions := #[⟨"main", 0, false, 0, .defined #[#[.ret none]]⟩, ⟨"callee", 1, false, 1, .defined #[#[.ret none]]⟩]
  globals := #[]
  constants := #[]
  entry := 0

/-- A machine at the start of the program, and a solver that always answers. -/
noncomputable def calling (reported : List (Location × String)) : Focus Unit where
  executor := {
    program := paired
    solver := { backend := .omniscient .all, state := () }
    allocator := { maxSize := 0 }
    states := {}
    tree := .ofState 0
    rng := .ofSeed 1
    reported }
  state := { State.start 0 0 0 with node := some ProcessTree.root }

theorem dispatchable_calling (reported : List (Location × String)) (hp : p.IsAddress)
    (harguments : ∀ e ∈ arguments, e.WellFormed) (hlength : arguments.length < 2 ^ 60) :
    Dispatchable .all (calling reported) p arguments none where
  program := by
    change paired.isValid
    decide +kernel
  widths := by
    change ∀ f ∈ paired.functions, _
    simp [paired]
  thread := ⟨_, rfl⟩
  register := by simp
  trace := ⟨_, rfl⟩
  memory := by
    have hentries : (calling reported).state.memory.entries = [] := rfl
    exact ⟨List.Pairwise.nil, by simp [hentries]⟩
  ids := by
    have hlist : (calling reported).state.memory.toList = [] := rfl
    simp [hlist]
  wellFormed := harguments
  length := hlength
  unrestrained := {
    exact := Backend.exact_omniscient _ _
    seeds := by simp [calling]
    maxDepth := rfl
    maxForks := rfl
    inhibitForking := rfl
    memory := .inr rfl }
  maxResolutions := rfl
  ready := {
    at_eq := rfl
    given := trivial
    live := by simp [calling]
    valid := ConstraintSet.valid_empty
    satisfiable := Inputs.satisfiable_empty _
    leaf := by
      rintro n ⟨⟩
      rfl
    enabled := rfl }
  id_lt := Nat.zero_lt_one
  removed_lt := by simp [calling]
  address := hp

/-- A call through a pointer to one of the 256 addresses from that of the first function on. -/
theorem call_divides_solutions_two_functions :
    (callPointer somewhere [.pointer 0] none).Returns (calling []) fun _ f ↦ ∃ place : Nat → Branch,
      (∀ a a', Inputs.all.Solves a (calling []).state.constraints →
        Inputs.all.Solves a' (calling []).state.constraints →
        place (a.val somewhere) = place (a'.val somewhere) → a.val somewhere = a'.val somewhere) ∧
      (∀ b, (calling []).Result f b →
        ∃ a, Inputs.all.Solves a (calling []).state.constraints ∧ place (a.val somewhere) = b) ∧
      ∀ a, Inputs.all.Solves a (calling []).state.constraints →
        ∃ s, Reaches .all (calling []) f somewhere [.pointer 0] none a (place (a.val somewhere)) s := by
  refine call_divides_solutions (dispatchable_calling [] isAddress_somewhere ?_ (by decide))
  simpa using (Expr.isAddress_pointer 0).wellFormed

/-- The machine, where a call with too few arguments was reported at this instruction. -/
noncomputable def refusedBefore : Focus Unit := calling [({}, ExecError.tooFewArguments.message)]

/-- A function is not entered if it has more parameters than there are arguments. -/
theorem function_with_parameter_not_entered :
    Dispatchable .all refusedBefore (.pointer 0x1010) [] none ∧
      ¬(callPointer (.pointer 0x1010) [] none).Returns refusedBefore fun _ f ↦
        ∀ a, Inputs.all.Solves a refusedBefore.state.constraints →
          ∃ b s, refusedBefore.Leads .all f a b s ∧ ∀ (id : FunctionId) callee,
            refusedBefore.executor.program.functions[id]? = some callee →
              id.address = a.val (.pointer 0x1010) →
                refusedBefore.state.Entered id callee ⟨refusedBefore.executor.location, none⟩ [] s := by
  have hrun : (callPointer (.pointer 0x1010) [] none).run.run refusedBefore =
      .ok (.ok (), { refusedBefore with
        executor := { refusedBefore.executor with removed := [0] } }) := rfl
  refine ⟨dispatchable_calling _ (Expr.isAddress_pointer _) (by simp) (by decide), ?_⟩
  rintro ⟨_, f, hf, h⟩
  obtain ⟨-, rfl⟩ := Prod.ext_iff.1 (Except.ok.inj (hrun.symm.trans hf))
  obtain ⟨a, ha⟩ := Inputs.satisfiable_empty Inputs.all
  obtain ⟨b, s, hleads, hentered⟩ := h a ha
  have haddress : (1 : FunctionId).address = a.val (.pointer 0x1010) := by
    rw [Assignment.val_pointer (by decide)]
    rfl
  obtain ⟨t, s₁, varargs, ht, hplaced, hdata⟩ := hentered 1 _ rfl haddress
  -- the state is as it was before the call, with one frame on its stack
  have hs : s = refusedBefore.state := by
    cases b with
    | current => exact (Option.some.inj hleads.at_eq).symm
    | forked id => exact absurd hleads.result.2 (Nat.not_lt_of_le hleads.result.1)
  have hthreads : s₁.threads = refusedBefore.state.threads := by
    cases varargs with
    | none => exact hplaced.2.threads_eq
    | some object => exact absurd hplaced.1.1 (Nat.not_lt_zero _)
  obtain rfl : Thread.start 0 0 0 = t := Option.some.inj ht
  have hstacks := congrArg (List.map (·.stack.length)) hdata.threads_eq
  rw [hs, State.setThread, hthreads] at hstacks
  exact absurd (show [1] = [2] from hstacks) (by decide)

end Exec

end Symex
