import Symex.Proofs.Lineage.Objects
import Symex.Proofs.Places

namespace Symex

open Checked

variable {σ α β : Type} {I : Trust} {A : Assignment → Prop} {Q : State → Prop}

def State.Within (I : Trust) (A : Assignment → Prop) (s : State) : Prop := ∀ a, I.Solves a s.constraints → A a

namespace Focus

variable {f g h : Focus σ}

theorem Sound.of_stateAt? {b : Branch} {s : State} (hf : f.Sound I) (hs : f.stateAt? b = some s) : s.Sound I := by
  cases b with
  | current => exact Option.some.inj hs ▸ hf.state
  | forked id => exact hf.executor.states id s hs

/-- The state goes on in a sound machine, and its solutions are within `A`. -/
structure Meets (I : Trust) (A : Assignment → Prop) (f : Focus σ) : Prop where
  sound : f.Sound I
  tidy : f.Tidy
  going : f.Going
  within : f.state.Within I A

theorem Meets.own (h : f.Meets I A) (hown : f.Own I g) (hremoved : g.executor.removed = f.executor.removed)
    (hg : g.Sound I) : g.Meets I A :=
  ⟨hg, (hown.succeeds h.tidy).tidy, Exec.own_going hown hremoved h.going,
    fun a ha ↦ h.within a (hown.narrower a ha)⟩

theorem Own.divided {P : Branch → State → Prop} (hg : f.Own I g) (hf : f.Tidy) (hh : g.Parts P h) :
    f.Parts P h := by
  have hstart : f.Parts (fun b _ ↦ b = .current ∧ True) g := hg.parts hf.none fun _ ↦ trivial
  exact hstart.trans hh (fun _ h ↦ h) (fun _ _ _ h ↦ nomatch h.1) fun _ _ _ h ↦ h

section

variable {P : Branch → State → Prop} {b inner : Branch} {s : State} {side : Option Branch}

theorem Parts.of_going (hg : f.Parts P g) (hb : f.Fresh b) (hs : g.stateAt? b = some s)
    (hgoing : (g.view b s).Going) : P b s := by
  cases b with
  | current =>
    obtain rfl : g.state = s := Option.some.inj hs
    exact hg.own hgoing
  | forked id =>
    have hid := hb id rfl
    exact hg.new id hid s hs ((hg.named id hid s hs).1 ▸ hgoing)

theorem Parts.given (hg : f.Parts P g) (hf : f.Tidy) (hs : g.stateAt? b = some s) : g.Given b := by
  cases b with
  | current => trivial
  | forked id => exact ((hg.succeeds hf).tidy.named id s hs).2

def Aside (g : Focus σ) (side : Option Branch) (b : Branch) : Prop := side ≠ some b ∧ g.Given b

theorem not_aside_relativeTo (h : g.Fresh inner) : ¬g.Aside (some b) (inner.relativeTo b) := by
  cases inner with
  | current => exact fun haside ↦ haside.1 rfl
  | forked id => exact fun haside ↦ Nat.not_lt.2 (h id rfl) haside.2

theorem Fresh.relativeTo (h : g.Fresh inner) (hb : f.Fresh b)
    (hle : f.executor.nextStateId ≤ g.executor.nextStateId) : f.Fresh (inner.relativeTo b) := by
  cases inner with
  | current => exact hb
  | forked id =>
    rintro _ ⟨⟩
    exact Nat.le_trans hle (h id rfl)

theorem Meets.view (hg : f.Parts P g) (hf : f.Tidy) (hsound : g.Sound I) (hb : f.Fresh b)
    (hP : ∀ s, P b s → s.Within I A) (hs : g.stateAt? b = some s) (hgoing : (g.view b s).Going) :
    (g.view b s).Meets I A := by
  have htidy := (hg.succeeds hf).tidy
  refine ⟨⟨?_, hsound.of_stateAt? hs⟩, ?_, hgoing, hP s (hg.of_going hb hs hgoing)⟩
  · cases b with
    | current => exact hsound.executor
    | forked id => exact hsound.executor.erase id
  · cases b with
    | current => exact Option.some.inj hs ▸ htidy
    | forked id => exact htidy.visit hs

end

end Focus

namespace Exec

variable {focus g : Focus σ} {condition : Expr} {x : Exec σ α} {k : α → Exec σ β}

/-! ## Divisions -/

/-- There is a result as `V` says, and the state was divided into parts as `R` says; or there is an error,
which concerns the state alone. -/
def Division (I : Trust) (focus : Focus σ) (V : α → Focus σ → Prop) (R : α → Branch → State → Prop) :
    Except PathError α → Focus σ → Prop
  | .ok a, f => V a f ∧ focus.Parts (R a) f
  | .error e, f => e.payload.isFatal = false ∧ focus.Own I f

/-- The work divides the state into parts as `R` says. -/
abbrev Divides (I : Trust) (x : Exec σ α) (focus : Focus σ) (V : α → Focus σ → Prop)
    (R : α → Branch → State → Prop) : Prop :=
  x.Ends (fun _ ↦ True) focus (Division I focus V R)

section

variable {V : α → Prop} {R : α → Branch → State → Prop} {P : Branch → State → Prop}

theorem divides_bind {V : β → Focus σ → Prop} {R : β → Branch → State → Prop} {T : α → Focus σ → Prop}
    (ht : focus.Tidy)
    (hx : x.Ends (fun _ ↦ True) focus fun r f ↦ focus.Own I f ∧
      match r with
      | .ok a => T a f
      | .error e => e.payload.isFatal = false)
    (hk : ∀ a f, focus.Own I f → T a f → (k a).Divides I f V R) : (x >>= k).Divides I focus V R := by
  refine ends_bind hx (fun a f h ↦ (hk a f h.1 h.2).mono fun r f' h' ↦ ?_) fun _ _ h ↦ ⟨h.2, h.1⟩
  cases r with
  | ok _ => exact ⟨h'.1, h.1.divided ht h'.2⟩
  | error _ => exact ⟨h'.1, h.1.trans h'.2⟩

theorem yields_settling_parts (ht : focus.Tidy) (hx : focus.Going → x.Divides I focus (fun a _ ↦ V a) R) :
    (settling x).Yields focus fun o f ↦
      (∀ a ∈ o, V a) ∧ focus.Parts (fun b s ↦ ∃ a ∈ o, R a b s) f := by
  have hgone : ∀ {f : Focus σ}, focus.Own I f → ¬f.Going →
      focus.Parts (fun b s ↦ ∃ a ∈ (none : Option α), R a b s) f := fun hf hgone ↦
    (hf.parts (P := fun _ ↦ False) ht.none hgone).mono fun _ _ h ↦ h.2.elim
  refine ends_settling (fun hdone ↦ ⟨none, rfl, nofun, hgone (.refl I _) ?_⟩) fun hlive ↦ ?_
  · exact fun hgoing ↦ hgoing (by simpa using hdone)
  · refine (hx (by simpa [Focus.Going] using hlive)).mono fun r f h ↦ ?_
    cases r with
    | ok a =>
      refine ⟨some a, rfl, ?_, h.2.mono fun _ _ ha ↦ ⟨a, rfl, ha⟩⟩
      rintro _ ⟨⟩
      exact h.1
    | error e =>
      have hsettle : (settle e : Exec σ Unit).Stays I False := stays_settle e
      refine Ends.mono (Yields.and (quits_settle h.1 f) (hsettle f)) ?_
      rintro _ f' ⟨u, rfl, hquits, hown⟩
      exact ⟨none, rfl, nofun, hgone (h.2.trans hown.1.toOwn) hquits⟩

theorem yields_onBranch_parts {b : Branch} (ht : focus.Tidy) (hg : focus.Parts P g) (hb : focus.Fresh b)
    (hx : ∀ s, g.stateAt? b = some s → (g.view b s).Going →
      x.Divides I (g.view b s) (fun a _ ↦ V a) R) :
    (onBranch b x).Yields g fun o g' ↦ (∀ a ∈ o, V a) ∧
      g.executor.nextStateId ≤ g'.executor.nextStateId ∧
        focus.Parts (fun b' s ↦ (g.Aside (some b) b' ∧ P b' s) ∨
          ∃ a ∈ o, ∃ inner : Branch, b' = inner.relativeTo b ∧ g.Fresh inner ∧ R a inner s) g' := by
  have htidy := (hg.succeeds ht).tidy
  cases b with
  | current =>
    refine (yields_settling_parts htidy (hx g.state rfl)).mono fun o g' h ↦
      ⟨h.1, h.2.next_le, hg.trans h.2 ?_ ?_ ?_⟩
    · rintro s ⟨a, ha, hs⟩
      exact .inr ⟨a, ha, .current, rfl, nofun, hs⟩
    · exact fun id hid s hs ↦ .inl ⟨⟨nofun, hid⟩, hs⟩
    · rintro id hid s ⟨a, ha, hs⟩
      refine .inr ⟨a, ha, .forked id, rfl, ?_, hs⟩
      rintro _ ⟨⟩
      exact hid
  | forked id =>
    have hid := hb id rfl
    refine yields_bind (Q := fun o g' ↦ (∀ a ∈ o.join, V a) ∧
      g.executor.nextStateId ≤ g'.executor.nextStateId ∧
        focus.Parts (fun b' s ↦ (g.Aside (some (.forked id)) b' ∧ P b' s) ∨
          ∃ a ∈ o.join, ∃ inner : Branch, b' = inner.relativeTo (.forked id) ∧ g.Fresh inner ∧ R a inner s) g')
      (ends_visit (fun hnone ↦ ?_) fun s hs ↦ ?_) fun _ _ h ↦ yields_pure h
    · refine ⟨none, rfl, nofun, Nat.le_refl _, hg.imp fun b' s hs hP ↦ .inl ⟨⟨?_, hg.given ht hs⟩, hP⟩⟩
      rintro ⟨⟩
      exact nomatch hnone.symm.trans hs
    · refine Ends.mono (yields_settling_parts (htidy.visit hs) (hx s hs)) ?_
      rintro _ f ⟨o, rfl, hV, hparts⟩
      refine ⟨some o, rfl, hV, hparts.next_le, hg.visit hid hs hparts (fun hP ↦ .inl ⟨⟨nofun, trivial⟩, hP⟩) ?_ ?_ ?_⟩
      · rintro s ⟨a, ha, hs⟩
        exact .inr ⟨a, ha, .current, rfl, nofun, hs⟩
      · exact fun id' hlt hne s hP ↦ .inl ⟨⟨fun heq ↦ hne (Branch.forked.inj (Option.some.inj heq)).symm, hlt⟩, hP⟩
      · rintro id' hge s ⟨a, ha, hs⟩
        refine .inr ⟨a, ha, .forked id', rfl, ?_, hs⟩
        rintro _ ⟨⟩
        exact hge

end

/-! ## Forks -/

/-- What becomes of a truth value: it stays open, and so does the state; or all solutions are on one of its
sides. -/
inductive Decided (I : Trust) (condition : Expr) (focus : Focus σ) : Except PathError Validity → Focus σ → Prop
  | failed {e : PathError} {f : Focus σ} (he : e.payload.isFatal = false) (h : focus.Own I f) :
      Decided I condition focus (.error e) f
  | unsettled : Decided I condition focus (.ok .sometimes) focus
  | holds {f : Focus σ} (h : focus.Own I f) (hall : f.state.Within I (·.val condition ≠ 0)) :
      Decided I condition focus (.ok .always) f
  | fails {f : Focus σ} (h : focus.Own I f) (hall : f.state.Within I (·.val condition = 0)) :
      Decided I condition focus (.ok .never) f

theorem ends_takeSide_decided (hown : focus.Own I g) (hvalid : g.state.constraints.Valid)
    (hcond : condition.IsTruth) (side : Bool) :
    (takeSide condition side).Ends (fun _ ↦ True) g (Decided I condition focus) := by
  have htruth : (if side then condition else condition.isZero).IsTruth := by
    cases side with
    | true => exact hcond
    | false => exact hcond.isZero
  refine ends_bind ((ends_addConstraint_solo (I := I) hvalid htruth.1).and (concerns_addConstraint _ _))
    (fun _ f h ↦ ends_pure ?_) fun e f h ↦ .failed (h.2 e rfl) (hown.trans h.1.1.1.toOwn)
  have hown := hown.trans h.1.1.1.toOwn
  cases side with
  | true => exact .holds hown h.1.2
  | false => exact .fails hown fun a ha ↦ by simpa [Expr.val_isZero ha.free hcond.1] using h.1.2 a ha

theorem ends_restrict_decided {v : Validity} (hvalid : focus.state.constraints.Valid) (hcond : condition.IsTruth)
    (htells : v.Tells I.toInputs focus.state.constraints condition) :
    (restrict condition true v).Ends (fun _ ↦ True) focus (Decided I condition focus) := by
  have hkept : Decided I condition focus (.ok v) focus := by
    cases v with
    | always => exact .holds (.refl I _) (htells.always_iff.1 rfl)
    | never => exact .fails (.refl I _) (htells.never_iff.1 rfl)
    | sometimes => exact .unsettled
  refine ends_bind_ok rfl (ends_bind_ok rfl ?_)
  rw [if_neg (by simp)]
  split
  · split
    · refine ends_bind_ok rfl ?_
      split
      · unfold followSeeds
        dsimp only
        split
        · exact ends_takeSide_decided (.refl I _) hvalid hcond _
        · exact ends_pure .unsettled
      · exact ends_pure hkept
    · refine ends_bind_ok rfl ?_
      split
      · have hdraw : (draw Rng.coin : Exec σ Bool).Stays I True := stays_draw _
        refine ends_bind (Yields.and (total_draw _ focus) (hdraw focus)) ?_ (by rintro _ _ ⟨_, ⟨⟩, -⟩)
        rintro side f ⟨_, ⟨⟩, -, h⟩
        exact ends_takeSide_decided h.1.toOwn (h.1.part.valid hvalid) hcond side
      · exact ends_pure hkept
  · exact ends_pure hkept

/-- The two sides are different places, each of which is in use. -/
structure Placed (focus : Focus σ) (sides : Sides) (f : Focus σ) : Prop where
  fresh : ∀ b, sides.1 = some b ∨ sides.2 = some b → focus.Fresh b
  given : ∀ b, sides.1 = some b ∨ sides.2 = some b → f.Given b
  apart : ∀ b, sides.1 = some b → sides.2 ≠ some b

theorem placed_none : Placed focus (none, none) g := ⟨nofun, nofun, nofun⟩

theorem placed_left : Placed focus (some .current, none) g := by
  refine ⟨?_, ?_, nofun⟩
  · rintro b (⟨⟨⟩⟩ | ⟨⟨⟩⟩)
    exact nofun
  · rintro b (⟨⟨⟩⟩ | ⟨⟨⟩⟩)
    trivial

theorem placed_right : Placed focus (none, some .current) g := by
  refine ⟨?_, ?_, nofun⟩
  · rintro b (⟨⟨⟩⟩ | ⟨⟨⟩⟩)
    exact nofun
  · rintro b (⟨⟨⟩⟩ | ⟨⟨⟩⟩)
    trivial

theorem placed_both {id : StateId} (hge : focus.executor.nextStateId ≤ id) (hlt : id < g.executor.nextStateId) :
    Placed focus (some .current, some (.forked id)) g := by
  refine ⟨?_, ?_, by rintro _ ⟨⟩; exact nofun⟩
  · rintro b (⟨⟨⟩⟩ | ⟨⟨⟩⟩)
    · exact nofun
    · rintro _ ⟨⟩
      exact hge
  · rintro b (⟨⟨⟩⟩ | ⟨⟨⟩⟩)
    · trivial
    · exact hlt

def AtSides (I : Trust) (A : Assignment → Prop) (condition : Expr) (sides : Sides) (b : Branch) (s : State) : Prop :=
  (sides.1 = some b ∧ s.Within I fun a ↦ A a ∧ a.val condition ≠ 0) ∨
    (sides.2 = some b ∧ s.Within I fun a ↦ A a ∧ a.val condition = 0)

theorem AtSides.within {sides : Sides} {b : Branch} {s : State} (h : AtSides I A condition sides b s) :
    s.Within I A :=
  h.elim (fun h a ha ↦ (h.2 a ha).1) fun h a ha ↦ (h.2 a ha).1

theorem ends_split_divides (hright : I.right) (hf : focus.Meets I A) (hcond : condition.IsTruth) :
    (split condition true).Ends (fun _ ↦ True) focus fun r g ↦ g.Sound I →
      Division I focus (Placed focus) (AtSides I A condition) r g := by
  have hforks : focus.Own I (focus.afterForks 1) := (focus.solo_afterForks 1).toOwn
  refine (ends_split_forked (I := I) hf.tidy hf.sound.state.valid hcond (.inl rfl)).mono fun r g h hg ↦ ?_
  -- what has no solution is not there
  have hgood {b : Branch} {s : State} (hs : g.stateAt? b = some s) : ∃ a, I.Solves a s.constraints :=
    (hg.of_stateAt? hs).satisfiable hright
  cases h with
  | failed he h => exact ⟨he, hforks.trans h⟩
  | ended h =>
    refine ⟨placed_none, (hforks.divided hf.tidy h).imp fun b s hs hb ↦ ?_⟩
    obtain ⟨a, ha⟩ := hgood hs
    exact (hb a ha).elim
  | both hid hlt h =>
    refine ⟨placed_both (hid ▸ hforks.next_le) hlt, (hforks.divided hf.tidy h).imp fun b s hs hb ↦ ?_⟩
    obtain ⟨a, ha⟩ := hgood hs
    cases b with
    | current => exact .inl ⟨rfl, fun a ha ↦ ⟨hf.within a (hb a ha).1, (hb a ha).2.1 rfl⟩⟩
    | forked id' =>
      obtain ⟨rfl, -⟩ := (hb a ha).2.2 id' rfl
      exact .inr ⟨hid ▸ rfl, fun a ha ↦ ⟨hf.within a (hb a ha).1, ((hb a ha).2.2 _ rfl).2⟩⟩

theorem divides_fork (hright : I.right) (hf : focus.Meets I A) (hcond : condition.IsTruth) :
    (fork condition true).Divides I focus (Placed focus) (AtSides I A condition) := by
  have hstays : (query (Solver.evaluate · condition) : Exec σ Validity).Stays I True := stays_query _
  refine (Ends.and (P := fun r f ↦ f.Sound I → Division I focus (Placed focus) (AtSides I A condition) r f) ?_
    (keeps_fork hcond true focus hf.sound)).mono fun _ _ h ↦ h.1 h.2.1
  refine ends_bind ((hstays focus).and ((concerns_query _ focus).and (ends_query_sound (fun hright ↦
    Solver.answers_evaluate hf.sound.state.valid (hf.sound.state.satisfiable hright) hcond.1) hf.sound)))
    (fun v f ⟨h, _, hsound, htells⟩ ↦ ?_) fun e f h _ ↦ ⟨h.2.1 e rfl, h.1.1.toOwn⟩
  obtain ⟨hstate, htells⟩ := htells v rfl
  have hown := h.1.toOwn
  have hf' := hf.own hown (h.2 trivial) hsound
  have hdecided : (restrict condition true v).Ends (fun _ ↦ True) f (Decided I condition f) :=
    ends_restrict_decided hsound.state.valid hcond (hstate ▸ htells hright)
  -- a side that all of the state goes to
  have hone : ∀ {g : Focus σ} {P : Assignment → Prop}, f.Own I g → g.state.Within I P →
      focus.Parts (fun b s ↦ b = .current ∧ s.Within I fun a ↦ A a ∧ P a) g := fun hg hall ↦
    (hown.trans hg).parts hf.tidy.none fun _ a ha ↦ ⟨hf'.within a (hg.narrower a ha), hall a ha⟩
  refine ends_bind hdecided (fun v g h ↦ ?_) fun e g h _ ↦ ?_
  · cases h with
    | unsettled =>
      refine (ends_split_divides hright hf' hcond).mono fun r g h hg ↦ ?_
      cases r with
      | ok sides =>
        obtain ⟨hplaced, hparts⟩ := h hg
        exact ⟨⟨fun b hb id hid ↦ Nat.le_trans hown.next_le (hplaced.fresh b hb id hid), hplaced.given,
          hplaced.apart⟩, hown.divided hf.tidy hparts⟩
      | error e => exact ⟨(h hg).1, hown.trans (h hg).2⟩
    | holds h hall =>
      exact ends_bind_ok (run_recordSide true true) (ends_pure fun _ ↦ ⟨placed_left,
        (hone h hall).mono fun b s hs ↦ .inl ⟨hs.1 ▸ rfl, hs.2⟩⟩)
    | fails h hall =>
      exact ends_bind_ok (run_recordSide false true) (ends_pure fun _ ↦ ⟨placed_right,
        (hone h hall).mono fun b s hs ↦ .inr ⟨hs.1 ▸ rfl, hs.2⟩⟩)
  · cases h with
    | failed he h => exact ⟨he, hown.trans h⟩

theorem yields_forkOn_parts {P : Branch → State → Prop} {b : Branch} (hright : I.right) (ht : focus.Tidy)
    (hsound : g.Sound I) (hg : focus.Parts P g) (hb : focus.Fresh b) (hP : ∀ s, P b s → s.Within I A)
    (hcond : condition.IsTruth) :
    (forkOn b condition true).Yields g fun sides g' ↦
      (∀ b', sides.1 = some b' ∨ sides.2 = some b' → focus.Fresh b') ∧
        focus.Parts (fun b' s ↦ (b' ≠ b ∧ P b' s) ∨ AtSides I A condition sides b' s) g' := by
  have hfork (s : State) (hs : g.stateAt? b = some s) (hgoing : (g.view b s).Going) :
      (fork condition true).Divides I (g.view b s)
        (fun sides _ ↦ ∀ b', sides.1 = some b' ∨ sides.2 = some b' → g.Fresh b') (AtSides I A condition) :=
    (divides_fork hright (.view hg ht hsound hb hP hs hgoing) hcond).mono fun r f h ↦ by
      cases r with
      | ok sides => exact ⟨h.1.fresh, h.2⟩
      | error e => exact h
  refine yields_bind (yields_onBranch_parts ht hg hb hfork) fun o g' ⟨hfresh, _, hparts⟩ ↦ ?_
  have hold : ∀ {b'}, g.Aside (some b) b' → b' ≠ b := fun h heq ↦ h.1 (congrArg some heq.symm)
  cases o with
  | none =>
    refine yields_pure ⟨nofun, hparts.mono fun b' s hs ↦ ?_⟩
    obtain ⟨haside, hs⟩ | ⟨_, ⟨⟩, -⟩ := hs
    exact .inl ⟨hold haside, hs⟩
  | some sides =>
    refine yields_pure ⟨fun b' hb' ↦ ?_, hparts.mono fun b' s hs ↦ ?_⟩
    · obtain ⟨inner, hinner, rfl⟩ : ∃ inner, (sides.1 = some inner ∨ sides.2 = some inner) ∧
          inner.relativeTo b = b' :=
        hb'.elim (fun h ↦ (Option.map_eq_some_iff.1 h).imp fun _ h ↦ ⟨.inl h.1, h.2⟩)
          fun h ↦ (Option.map_eq_some_iff.1 h).imp fun _ h ↦ ⟨.inr h.1, h.2⟩
      exact (hfresh sides rfl inner hinner).relativeTo hb hg.next_le
    · obtain ⟨haside, hs⟩ | ⟨_, ⟨⟩, inner, rfl, -, hs⟩ := hs
      · exact .inl ⟨hold haside, hs⟩
      · exact .inr (hs.imp (fun h ↦ ⟨Option.map_eq_some_iff.2 ⟨inner, h.1, rfl⟩, h.2⟩)
          fun h ↦ ⟨Option.map_eq_some_iff.2 ⟨inner, h.1, rfl⟩, h.2⟩)

/-! ## What work brings about -/

/-- Where its solutions are within `A`, the work divides the state into parts that are as `Q` says. -/
structure Brings (I : Trust) (A : Assignment → Prop) (Q : State → Prop) (x : Exec σ Unit) : Prop where
  keeps : x.Keeps I fun _ ↦ True
  divides : ∀ focus : Focus σ, focus.Meets I A →
    x.Divides I focus (fun _ _ ↦ True) fun _ _ s ↦ s.Within I A ∧ Q s

/-- If all that a state became at a side has its solutions within `A`, the work makes it as `Q` says, and
leaves the rest of the state alone. -/
structure Handles (I : Trust) (A : Assignment → Prop) (Q : State → Prop) (k : Option Branch → Exec σ Unit) :
    Prop where
  keeps : ∀ side, (k side).Keeps I fun _ ↦ True
  yields : ∀ {focus g : Focus σ} {P : Branch → State → Prop} (side : Option Branch), focus.Tidy → g.Sound I →
    focus.Parts P g → (∀ b, side = some b → focus.Fresh b ∧ ∀ s, P b s → s.Within I A) →
      (k side).Yields g fun _ g' ↦ g.executor.nextStateId ≤ g'.executor.nextStateId ∧
        focus.Parts (fun b s ↦ (g.Aside side b ∧ P b s) ∨ (¬g.Aside side b ∧ s.Within I A ∧ Q s)) g'

section

variable {A' : Assignment → Prop} {y : Exec σ Unit}

theorem brings_of_stays (hkeeps : y.Keeps I fun _ ↦ True) (hstays : y.Stays I False) (hconcerns : y.Concerns)
    (hQ : ∀ focus : Focus σ, focus.Meets I A → y.Ends (fun _ ↦ True) focus fun r f ↦
      r = .ok () → f.Going → f.state.Within I A → Q f.state) : y.Brings I A Q where
  keeps := hkeeps
  divides focus hf := by
    refine ((hstays focus).and ((hconcerns focus).and (hQ focus hf))).mono fun r f ⟨hown, hconcerns, hQ⟩ ↦ ?_
    cases r with
    | ok _ =>
      have hwithin : f.state.Within I A := fun a ha ↦ hf.within a (hown.1.narrower a ha)
      exact ⟨trivial, (hown.1.toOwn.parts (P := fun s ↦ s.Within I A ∧ Q s) hf.tidy.none fun hgoing ↦
        ⟨hwithin, hQ rfl hgoing hwithin⟩).mono fun _ _ h ↦ h.2⟩
    | error e => exact ⟨hconcerns e rfl, hown.1.toOwn⟩

theorem brings_of_quits (hkeeps : y.Keeps I fun _ ↦ True) (hstays : y.Stays I False) (hquits : y.Quits) :
    y.Brings I A Q :=
  brings_of_stays hkeeps hstays (Total.concerns fun focus ↦ (hquits focus).mono fun _ _ _ ↦ trivial) fun focus _ ↦
    Ends.mono (hquits focus) fun _ _ ⟨_, _, h⟩ _ hgoing _ ↦ (h hgoing).elim

theorem brings_bind_within {x : Exec σ β} {k : β → Exec σ Unit} {R : β → Prop} {B : β → Assignment → Prop}
    (hkeeps : x.Keeps I R) (hstays : x.Stays I True) (hconcerns : x.Concerns)
    (hx : ∀ focus : Focus σ, focus.Meets I A → x.KeepsAt I focus fun b f ↦ f.state.Within I (B b))
    (hk : ∀ b, R b → (k b).Brings I (fun a ↦ A a ∧ B b a) Q) : (x >>= k).Brings I A Q where
  keeps := keeps_bind hkeeps fun b hb ↦ (hk b hb).keeps
  divides focus hf := by
    refine divides_bind (T := fun b f ↦ R b ∧ f.Meets I fun a ↦ A a ∧ B b a) hf.tidy
      (((hstays focus).and (hkeeps focus hf.sound)).and ((hconcerns focus).and (hx focus hf)) |>.mono
        fun r f ⟨⟨hown, hsound, hR⟩, hconcerns, _, hB⟩ ↦ ⟨hown.1.toOwn, ?_⟩) fun b f _ ⟨hb, hf⟩ ↦
          ((hk b hb).divides f hf).mono fun r f' h ↦ ?_
    · cases r with
      | ok b =>
        have hf := hf.own hown.1.toOwn (hown.2 trivial) hsound
        exact ⟨hR b rfl, hf.sound, hf.tidy, hf.going, fun a ha ↦ ⟨hf.within a ha, hB b rfl a ha⟩⟩
      | error e => exact hconcerns e rfl
    · cases r with
      | ok _ => exact ⟨trivial, h.2.mono fun _ _ hs ↦ ⟨fun a ha ↦ (hs.1 a ha).1, hs.2⟩⟩
      | error e => exact h

theorem brings_bind {x : Exec σ β} {k : β → Exec σ Unit} {R : β → Prop} (hkeeps : x.Keeps I R)
    (hstays : x.Stays I True) (hconcerns : x.Concerns) (hk : ∀ b, R b → (k b).Brings I A Q) :
    (x >>= k).Brings I A Q :=
  brings_bind_within (B := fun _ _ ↦ True) hkeeps hstays hconcerns
    (fun focus hf ↦ (hkeeps.here hf.sound).mono fun _ _ _ _ _ ↦ trivial) fun b hb ↦ by simpa using hk b hb

theorem brings_lift_bind {c : Checked β} {k : β → Exec σ Unit} {R : β → Prop} (hc : Safe c R)
    (hk : ∀ b, R b → (k b).Brings I A Q) : (liftM c >>= k).Brings I A Q :=
  brings_bind (keeps_lift hc) (stays_lift _) (total_lift _).concerns hk

theorem handles_onSide (hy : y.Brings I A Q) : Handles I A Q (onSide · y) where
  keeps side := keeps_onSide side hy.keeps
  yields {focus g P} side ht hsound hg hside := by
    cases side with
    | none => exact yields_pure ⟨Nat.le_refl _, hg.imp fun b s hs hP ↦ .inl ⟨⟨nofun, hg.given ht hs⟩, hP⟩⟩
    | some b =>
      obtain ⟨hb, hP⟩ := hside b rfl
      refine yields_bind (yields_onBranch_parts (V := fun _ ↦ True) ht hg hb fun s hs hgoing ↦
        hy.divides _ (.view hg ht hsound hb hP hs hgoing)) fun o g' h ↦
          yields_pure ⟨h.2.1, h.2.2.mono fun b' s hs ↦ ?_⟩
      obtain hs | ⟨_, -, inner, rfl, hinner, hs⟩ := hs
      · exact .inl hs
      · exact .inr ⟨Focus.not_aside_relativeTo hinner, hs⟩

theorem brings_fork {k₁ k₂ : Option Branch → Exec σ Unit} (hright : I.right) (hcond : condition.IsTruth)
    (h₁ : Handles I (fun a ↦ A a ∧ a.val condition ≠ 0) Q k₁)
    (h₂ : Handles I (fun a ↦ A a ∧ a.val condition = 0) Q k₂) :
    (do
      let (holds, fails) ← fork condition true
      k₁ holds
      k₂ fails : Exec σ Unit).Brings I A Q where
  keeps := keeps_bind (keeps_fork hcond true) fun sides _ ↦ keeps_bind (h₁.keeps sides.1) fun _ _ ↦
    h₂.keeps sides.2
  divides focus hf := by
    refine ends_bind ((divides_fork hright hf hcond).and (keeps_fork hcond true focus hf.sound))
      (fun sides f h ↦ ?_) fun _ _ h ↦ h.1
    obtain ⟨⟨hplaced, hparts⟩, hsound, -⟩ := h
    obtain ⟨holds, fails⟩ := sides
    have hfirst : ∀ b, holds = some b → focus.Fresh b ∧
        ∀ s, AtSides I A condition (holds, fails) b s → s.Within I fun a ↦ A a ∧ a.val condition ≠ 0 :=
      fun b hb ↦ ⟨hplaced.fresh b (.inl hb), fun s hs ↦ (hs.resolve_right fun h ↦ hplaced.apart b hb h.1).2⟩
    refine ends_bind (Yields.and (h₁.yields holds hf.tidy hsound hparts hfirst) (h₁.keeps holds f hsound)) ?_
      (by rintro _ _ ⟨_, ⟨⟩, -⟩)
    rintro _ f₁ ⟨_, ⟨⟩, ⟨-, hparts₁⟩, hsound₁, -⟩
    refine Ends.mono (h₂.yields fails hf.tidy hsound₁ hparts₁ fun b hb ↦ ⟨hplaced.fresh b (.inr hb), ?_⟩) ?_
    · rintro s (⟨haside, hs⟩ | ⟨haside, -⟩)
      · exact (hs.resolve_left fun h ↦ haside.1 h.1).2
      · exact absurd ⟨fun h ↦ hplaced.apart b h hb, hplaced.given b (.inr hb)⟩ haside
    · rintro _ f₂ ⟨_, rfl, -, hparts₂⟩
      refine ⟨trivial, hparts₂.mono fun b s hs ↦ ?_⟩
      obtain ⟨haside₂, ⟨haside₁, hs⟩ | ⟨-, hs⟩⟩ | ⟨-, hs⟩ := hs
      · exact (hs.elim (fun h ↦ haside₁.1 h.1) fun h ↦ haside₂.1 h.1).elim
      · exact ⟨fun a ha ↦ (hs.1 a ha).1, hs.2⟩
      · exact ⟨fun a ha ↦ (hs.1 a ha).1, hs.2⟩

end

/-! ## Pointers -/

variable {address : Expr}

theorem total_resolve (address : Expr) : (resolve address : Exec σ Resolution).Total := fun _ ↦
  ends_bind_ok rfl (yields_bind (total_lift _ _) fun _ _ _ ↦ ends_bind_ok rfl (yields_pure trivial))

/-- All that the state became is where one of the objects of `d` was found, or where the rest of them is
looked for. -/
theorem yields_eachObject {same : MemoryObject → Checked Expr} {d : List (Branch × MemoryObject)}
    (hright : I.right) (hsame : ∀ o, Safe (same o) Expr.IsTruth) (ht : focus.Tidy) (hsound : g.Sound I)
    (objects : List MemoryObject) (remaining : Option Branch) (hfresh : ∀ b, remaining = some b → focus.Fresh b)
    (hg : focus.Parts (fun b s ↦ s.Within I A ∧ ((∃ p ∈ d, p.1 = b) ∨ remaining = some b)) g) :
    (eachObject same (fun branch object ↦ return some (branch, object)) objects remaining).Yields g fun r g' ↦
      (∀ p ∈ r.1, focus.Fresh p.1) ∧ (∀ b, r.2 = some b → focus.Fresh b) ∧ g'.Sound I ∧
        focus.Parts (fun b s ↦ s.Within I A ∧ ((∃ p ∈ d ++ r.1, p.1 = b) ∨ r.2 = some b)) g' := by
  induction objects generalizing remaining d g with
  | nil => exact yields_pure ⟨nofun, hfresh, hsound, by simpa using hg⟩
  | cons object rest ih =>
    cases remaining with
    | none => exact yields_pure ⟨nofun, nofun, hsound, by simpa using hg⟩
    | some b =>
      refine yields_bind (yields_lift (hsame object)) ?_
      rintro c _ ⟨rfl, hc⟩
      refine yields_bind (Yields.and (yields_forkOn_parts hright ht hsound hg (hfresh b rfl) (fun _ hs ↦ hs.1) hc)
        (keeps_forkOn b hc true g hsound)) fun sides g₁ ⟨⟨hplaces, hparts⟩, hsound₁, _⟩ ↦ ?_
      -- where the object was found the state is put aside, and the others are tried where it was not
      have hrest (here : Option (Branch × MemoryObject)) (hhere : ∀ p ∈ here, sides.1 = some p.1)
          (hall : ∀ b', sides.1 = some b' → ∃ p ∈ here, p.1 = b') : (do
            let later ← eachObject same (fun branch object ↦ return some (branch, object)) rest sides.2
            return (here.toList ++ later.1, later.2) : Exec σ _).Yields g₁ fun r g' ↦
              (∀ p ∈ r.1, focus.Fresh p.1) ∧ (∀ b, r.2 = some b → focus.Fresh b) ∧ g'.Sound I ∧
                focus.Parts (fun b s ↦ s.Within I A ∧ ((∃ p ∈ d ++ r.1, p.1 = b) ∨ r.2 = some b)) g' := by
        refine yields_bind (ih (d := d ++ here.toList) hsound₁ sides.2 (fun b' hb' ↦ hplaces b' (.inr hb'))
          (hparts.mono fun b' s hs ↦ ?_)) fun later g₂ h ↦ yields_pure ⟨?_, h.2.1, h.2.2.1, ?_⟩
        · obtain ⟨hne, hwithin, hdone⟩ | hs := hs
          · obtain ⟨p, hp, rfl⟩ | heq := hdone
            · exact ⟨hwithin, .inl ⟨p, List.mem_append_left _ hp, rfl⟩⟩
            · exact absurd (Option.some.inj heq).symm hne
          · refine ⟨hs.within, hs.elim (fun h ↦ .inl ?_) fun h ↦ .inr h.1⟩
            obtain ⟨p, hp, rfl⟩ := hall b' h.1
            exact ⟨p, List.mem_append_right _ (Option.mem_toList.2 hp), rfl⟩
        · intro p hp
          obtain hp | hp := List.mem_append.1 hp
          · exact hplaces _ (.inl (hhere p (Option.mem_toList.1 hp)))
          · exact h.1 p hp
        · simpa only [List.append_assoc] using h.2.2.2
      obtain ⟨inside, outside⟩ := sides
      cases inside with
      | none => exact hrest none nofun nofun
      | some inside =>
        refine hrest (some (inside, object)) ?_ fun b' hb' ↦ ⟨_, rfl, Option.some.inj hb'⟩
        rintro _ ⟨⟩
        rfl

theorem quits_reportPointer (address : Expr) (error : ExecError) : (do
    let details ← addressInfo address
    terminateOnError ⟨(← executor).location, error⟩ (some details) : Exec σ Unit).Quits :=
  quits_bind (total_addressInfo address) fun _ ↦ quits_bind total_executor fun _ ↦ quits_terminateOnError _ _

theorem divides_resolveExact (hright : I.right) (hf : focus.Meets I A) (haddress : address.WellFormed)
    (operation : String) :
    (resolveExact address operation).Divides I focus (fun resolved _ ↦ ∀ p ∈ resolved, focus.Fresh p.1)
      fun resolved b s ↦ s.Within I A ∧ ∃ p ∈ resolved, p.1 = b := by
  have hsame (o : MemoryObject) : Safe (Expr.mkEq address o.base) Expr.IsTruth :=
    Expr.safe_mkCompare .eq haddress (Expr.pointer_wellFormed _)
  have hstays : (resolve address : Exec σ Resolution).Stays I True := stays_resolve address
  refine divides_bind (T := fun _ f ↦ f.Meets I A) hf.tidy (Ends.mono (Yields.and (total_resolve address focus)
    ((hstays focus).and (keeps_resolve haddress focus hf.sound))) ?_) fun resolution f hown hf' ↦ ?_
  · rintro _ f ⟨_, rfl, -, hown, hsound, -⟩
    exact ⟨hown.1.toOwn, hf.own hown.1.toOwn (hown.2 trivial) hsound⟩
  · have hreport : Brings I A (fun _ ↦ False) (do
        let details ← addressInfo address
        terminateOnError ⟨(← executor).location, .invalidPointer operation⟩ (some details) : Exec σ Unit) :=
      brings_of_quits (keeps_reportPointer haddress _) (stays_reportPointer _ _) (quits_reportPointer _ _)
    refine Ends.mono (P := fun r g ↦ ∃ resolved, r = .ok resolved ∧ (∀ p ∈ resolved, f.Fresh p.1) ∧
      f.Parts (fun b s ↦ s.Within I A ∧ ∃ p ∈ resolved, p.1 = b) g) ?_ ?_
    · refine yields_bind (yields_eachObject (d := []) hright hsame hf'.tidy hf'.sound _ (some .current)
        (by rintro _ ⟨⟩; exact nofun) (.refl hf'.tidy ⟨hf'.within, .inr rfl⟩)) ?_
      rintro ⟨resolved, remaining⟩ g ⟨hplaces, hremaining, hsound, hparts⟩
      refine yields_bind ((handles_onSide hreport).yields remaining hf'.tidy hsound hparts fun b hb ↦
        ⟨hremaining b hb, fun _ hs ↦ hs.1⟩) fun _ g' h ↦ yields_pure ⟨hplaces, h.2.mono fun b s hs ↦ ?_⟩
      obtain ⟨haside, hwithin, hs⟩ | ⟨-, -, ⟨⟩⟩ := hs
      exact ⟨hwithin, hs.resolve_right haside.1⟩
    · rintro _ g ⟨resolved, rfl, hplaces, hparts⟩
      exact ⟨fun p hp id hid ↦ Nat.le_trans hown.next_le (hplaces p hp id hid), hparts⟩

theorem handles_onObjects {work : MemoryObject → Exec σ Unit} (hright : I.right) (haddress : address.WellFormed)
    (operation : String) (hwork : ∀ o, (work o).Brings I A Q) :
    Handles I A Q (onObjects · address operation work) where
  keeps side := keeps_onObjects side haddress operation fun o ↦ (hwork o).keeps
  yields {focus g P} side ht hsound hg hside := by
    cases side with
    | none => exact yields_pure ⟨Nat.le_refl _, hg.imp fun b s hs hP ↦ .inl ⟨⟨nofun, hg.given ht hs⟩, hP⟩⟩
    | some side =>
      obtain ⟨hfresh, hP⟩ := hside side rfl
      have hresolve : (resolveExact address operation : Exec σ _).Keeps I fun _ ↦ True :=
        keeps_resolveExact haddress operation
      have hfound (s : State) (hs : g.stateAt? side = some s) (hgoing : (g.view side s).Going) :=
        divides_resolveExact hright (.view hg ht hsound hfresh hP hs hgoing) haddress operation
      refine yields_bind (Yields.and (yields_onBranch_parts (V := fun resolved ↦ ∀ p ∈ resolved, g.Fresh p.1) ht hg
        hfresh hfound) (keeps_onBranch side hresolve g hsound)) fun o g₁ ⟨⟨hplaces, hle, hparts⟩, hsound₁, _⟩ ↦ ?_
      -- what is at the places of the objects that are left still has to be worked on
      refine yields_bind (yields_forIn (J := fun rest g' ↦ g'.Sound I ∧
        g.executor.nextStateId ≤ g'.executor.nextStateId ∧ (∀ p ∈ rest, g.Fresh p.1) ∧
          focus.Parts (fun b s ↦ (g.Aside (some side) b ∧ P b s) ∨ (¬g.Aside (some side) b ∧ s.Within I A ∧
            (Q s ∨ ∃ p ∈ rest, p.1.relativeTo side = b))) g') ?_ ?_) fun _ g' h ↦ yields_pure
              ⟨h.2.1, h.2.2.2.mono fun b s hs ↦ hs.imp_right fun h ↦ ⟨h.1, h.2.1, by simpa using h.2.2⟩⟩
      · refine ⟨hsound₁, hle, fun p hp ↦ ?_, hparts.mono fun b s hs ↦ hs.imp_right ?_⟩
        · cases o with
          | none => cases hp
          | some resolved => exact hplaces resolved rfl p hp
        · rintro ⟨resolved, rfl, inner, rfl, hinner, hwithin, p, hp, rfl⟩
          exact ⟨Focus.not_aside_relativeTo hinner, hwithin, .inr ⟨p, hp, rfl⟩⟩
      · rintro ⟨branch, object⟩ rest f ⟨hsound, hle, hplaces, hparts⟩
        rw [List.forall_mem_cons] at hplaces
        have hplace : ¬g.Aside (some side) (branch.relativeTo side) := Focus.not_aside_relativeTo hplaces.1
        refine yields_bind (Yields.and ((handles_onSide (hwork object)).yields (some (branch.relativeTo side)) ht hsound
          hparts ?_) (keeps_onSide _ (hwork object).keeps f hsound)) fun _ f' ⟨⟨hle', hparts'⟩, hsound', _⟩ ↦
            yields_pure ⟨rfl, hsound', Nat.le_trans hle hle', hplaces.2, hparts'.mono fun b s hs ↦ ?_⟩
        · rintro _ ⟨⟩
          exact ⟨hplaces.1.relativeTo hfresh hg.next_le, fun s hs ↦ (hs.resolve_left fun h ↦ hplace h.1).2.1⟩
        · obtain ⟨haside, hs⟩ | ⟨haside, hs⟩ := hs
          · refine hs.imp_right fun h ↦ ⟨h.1, h.2.1, h.2.2.imp_right ?_⟩
            rintro ⟨p, hp, rfl⟩
            obtain rfl | hp := List.mem_cons.1 hp
            · exact absurd rfl haside.1
            · exact ⟨p, hp, rfl⟩
          · refine .inr ⟨fun h ↦ haside ⟨fun heq ↦ ?_, h.2.mono hle⟩, hs.1, .inl hs.2⟩
            exact hplace (Option.some.inj heq ▸ h)

end Exec

end Symex
