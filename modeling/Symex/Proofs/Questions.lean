import Mathlib.Order.Bounds.Defs
import Symex.Proofs.AddedConstraints
import Symex.Proofs.Concretes
import Symex.Solver.Front

namespace Symex

variable {σ α β : Type}

/-! ## Solutions -/

/-- What inputs can be: a class of assignments that leave no byte open. -/
structure Inputs where
  possible : Assignment → Prop
  free : ∀ {a}, possible a → a.free = true
  inhabited : ∃ a, possible a

def Inputs.all : Inputs := ⟨fun a ↦ a.free = true, id, ⟨⟨true, {}⟩, rfl⟩⟩

/-- The inputs are possible, and the constraints hold under them. -/
structure Inputs.Solves (I : Inputs) (a : Assignment) (c : ConstraintSet) : Prop where
  possible : I.possible a
  holds : a.HoldsAll c.toList

def Inputs.Satisfiable (I : Inputs) (c : ConstraintSet) : Prop := ∃ a, I.Solves a c

/-- The values that an expression takes in the solutions. -/
def Inputs.values (I : Inputs) (c : ConstraintSet) (e : Expr) : Set Nat :=
  {v | ∃ a, I.Solves a c ∧ a.val e = v}

variable {I : Inputs} {a : Assignment} {c : ConstraintSet} {e e' : Expr}

theorem Inputs.Solves.free (h : I.Solves a c) : a.free = true := I.free h.possible

theorem Inputs.satisfiable_empty (I : Inputs) : I.Satisfiable {} := by
  obtain ⟨a, ha⟩ := I.inhabited
  exact ⟨a, ha, by simp [ConstraintSet.toList]⟩

theorem Assignment.holds_iff_val (ha : a.free) : a.Holds e ↔ a.val e ≠ 0 := by
  rw [Holds, a.eval_eq_val ha e]
  simp

theorem Expr.IsTruth.isZero {e : Expr} (h : e.IsTruth) : e.isZero.IsTruth :=
  have href := Expr.isZero_refines (a := ⟨true, {}⟩) h.1
  ⟨href.wellFormed, href.width_eq⟩

theorem Inputs.Solves.val_eq (h : I.Solves a c) (href : RefinesOn (·.HoldsAll c.toList) e e') :
    a.val e' = a.val e :=
  a.val_eq (href.eval_eq h.holds (a.eval_eq_val h.free e))

namespace ConstraintSet

theorem Valid.exists_add (hc : c.Valid) (he : e.IsTruth) (hsat : ∃ a, I.Solves a c ∧ a.val e ≠ 0) :
    ∃ c', c.add e = .ok c' ∧ c'.Valid ∧ ∀ a, I.Solves a c' ↔ I.Solves a c ∧ a.val e ≠ 0 := by
  obtain ⟨a, ha, hne⟩ := hsat
  obtain ⟨c', hc'⟩ := exists_addWithin ha.free hc he ha.holds
    ((Assignment.holds_iff_val ha.free).2 hne) (Nat.lt_succ_self _)
  have hadded := added_of_addWithin hc he.1 hc'
  refine ⟨c', hc', hadded.valid, fun b ↦ ⟨fun hb ↦ ?_, fun hb ↦ ⟨hb.1.possible, ?_⟩⟩⟩
  · obtain ⟨hold, hnew⟩ := (hadded.holds_iff hb.free).1 hb.holds
    exact ⟨⟨hb.possible, hold⟩, (Assignment.holds_iff_val hb.free).1 (hnew e (by simp))⟩
  · refine (hadded.holds_iff hb.1.free).2 ⟨hb.1.holds, ?_⟩
    simpa using (Assignment.holds_iff_val hb.1.free).2 hb.2

end ConstraintSet

/-! ## Answers -/

/-- What is said of a truth value holds of all solutions. -/
structure Validity.Tells (I : Inputs) (c : ConstraintSet) (e : Expr) (v : Validity) : Prop where
  always_iff : v = .always ↔ ∀ a, I.Solves a c → a.val e ≠ 0
  never_iff : v = .never ↔ ∀ a, I.Solves a c → a.val e = 0

/-- An answer is as `P` says. Without one, `fails` holds. -/
def Answered (fails : Prop) (P : α → Prop) : Except SolverError α → Prop
  | .ok v => P v
  | .error _ => fails

/-- A question about a well-formed term, under constraints that have a solution. -/
structure Query.Sensible (I : Inputs) (q : Query) : Prop where
  valid : q.constraints.Valid
  satisfiable : I.Satisfiable q.constraints
  wellFormed : q.expr.WellFormed

/-- The backend answers sensible questions correctly, or not at all where `fails` allows that. -/
structure Backend.Exact (I : Inputs) (fails : Prop) (b : Backend σ) : Prop where
  evaluate : ∀ q s, q.Sensible I →
    Answered fails (·.Tells I q.constraints q.expr) (b.evaluate q s).1
  mustBeTrue : ∀ q s, q.Sensible I →
    Answered fails (fun v ↦ v = true ↔ ∀ a, I.Solves a q.constraints → a.val q.expr ≠ 0)
      (b.mustBeTrue q s).1
  value : ∀ q s, q.Sensible I →
    Answered fails (fun v ↦ ∃ a, I.Solves a q.constraints ∧ a.val q.expr = v) (b.value q s).1
  initialValues : ∀ q arrays s, q.Sensible I →
    Answered fails (fun _ ↦ True) (b.initialValues q arrays s).1

variable {fails : Prop}

open Classical in
noncomputable def Backend.omniscient (I : Inputs) : Backend Unit where
  evaluate q s := (.ok (
    if ∀ a, I.Solves a q.constraints → a.val q.expr ≠ 0 then .always
    else if ∀ a, I.Solves a q.constraints → a.val q.expr = 0 then .never
    else .sometimes), s)
  mustBeTrue q s := (.ok (decide (∀ a, I.Solves a q.constraints → a.val q.expr ≠ 0)), s)
  value q s := (.ok (if h : I.Satisfiable q.constraints then h.choose.val q.expr else 0), s)
  initialValues _ _ s := (.ok none, s)

theorem Backend.exact_omniscient (I : Inputs) (fails : Prop) : (omniscient I).Exact I fails where
  evaluate q s hq := by
    obtain ⟨a, ha⟩ := hq.satisfiable
    simp only [omniscient, Answered]
    split
    · rename_i hall
      exact ⟨by simpa using hall, by simpa using ⟨a, ha, hall a ha⟩⟩
    · rename_i hsome
      split
      · rename_i hnone
        exact ⟨by simpa using hsome, by simpa using hnone⟩
      · rename_i hother
        exact ⟨by simpa using hsome, by simpa using hother⟩
  mustBeTrue q s _ := by simp [omniscient, Answered]
  value q s hq := by
    simp only [omniscient, Answered, dif_pos hq.satisfiable]
    exact ⟨_, hq.satisfiable.choose_spec, rfl⟩
  initialValues _ _ _ _ := trivial

def Backend.silent : Backend Unit where
  evaluate _ s := (.error .timeout, s)
  mustBeTrue _ s := (.error .timeout, s)
  value _ s := (.error .timeout, s)
  initialValues _ _ s := (.error .timeout, s)

theorem Backend.exact_silent (I : Inputs) : silent.Exact I True :=
  ⟨fun _ _ _ ↦ trivial, fun _ _ _ ↦ trivial, fun _ _ _ ↦ trivial, fun _ _ _ _ ↦ trivial⟩

/-- The backend that knows some inputs only. It tells what can be either. -/
def Backend.sampling (samples : List Assignment) : Backend Unit where
  evaluate q s :=
    let values := (samples.filter fun a ↦ q.constraints.toList.all (a.val · != 0)).map (·.val q.expr)
    (if values.any (· != 0) && values.any (· == 0) then .ok .sometimes else .error .timeout, s)
  mustBeTrue _ s := (.error .timeout, s)
  value _ s := (.error .timeout, s)
  initialValues _ _ s := (.error .timeout, s)

theorem Backend.exact_sampling {samples : List Assignment} (h : ∀ a ∈ samples, I.possible a) :
    (sampling samples).Exact I True := by
  refine ⟨fun q s _ ↦ ?_, fun _ _ _ ↦ trivial, fun _ _ _ ↦ trivial, fun _ _ _ _ ↦ trivial⟩
  have hsolves : ∀ a ∈ samples, (∀ c ∈ q.constraints.toList, a.val c ≠ 0) → I.Solves a q.constraints :=
    fun a ha hall ↦ ⟨h a ha, fun c hc ↦ (Assignment.holds_iff_val (I.free (h a ha))).2 (hall c hc)⟩
  dsimp only [sampling]
  split
  · rename_i hvalues
    simp only [Bool.and_eq_true, List.any_map, List.any_filter, List.any_eq_true, Function.comp_apply,
      List.all_eq_true, bne_iff_ne, beq_iff_eq] at hvalues
    obtain ⟨⟨a, ha, hall, hne⟩, b, hb, hall', hzero⟩ := hvalues
    exact ⟨by simpa using ⟨b, hsolves b hb hall', hzero⟩, by simpa using ⟨a, hsolves a ha hall, hne⟩⟩
  · trivial

theorem Answered.mono {P Q : α → Prop} {r : Except SolverError α} (h : Answered fails P r)
    (hPQ : ∀ v, P v → Q v) : Answered fails Q r := by
  cases r with
  | ok v => exact hPQ v h
  | error _ => exact h

/-- The solver is the same but for the state of the backend, the number of questions and the time. -/
structure Solver.Same (s s' : Solver σ) : Prop where
  backend_eq : s'.backend = s.backend
  timeout_eq : s'.timeout = s.timeout
  clock_eq : s'.clock = s.clock
  readings_le : s.readings ≤ s'.readings

theorem Solver.Same.refl (s : Solver σ) : s.Same s := ⟨rfl, rfl, rfl, Nat.le_refl _⟩

theorem Solver.Same.trans {s s' s'' : Solver σ} (h : s.Same s') (h' : s'.Same s'') : s.Same s'' where
  backend_eq := h'.backend_eq.trans h.backend_eq
  timeout_eq := h'.timeout_eq.trans h.timeout_eq
  clock_eq := h'.clock_eq.trans h.clock_eq
  readings_le := Nat.le_trans h.readings_le h'.readings_le

/-- With an exact backend, a search gives a result, and `P` holds of it. -/
def Finds (I : Inputs) (fails : Prop) (search : StateT (Solver σ) Checked α) (P : α → Prop) : Prop :=
  ∀ s : Solver σ, s.backend.Exact I fails → ∃ r s', search.run s = .ok (r, s') ∧ s.Same s' ∧ P r

theorem finds_pure {P : α → Prop} {v : α} (h : P v) :
    Finds I fails (pure v : StateT (Solver σ) Checked α) P :=
  fun s _ ↦ ⟨v, s, rfl, .refl s, h⟩

/-- The same for a search that reads a given clock. -/
def FindsBy (I : Inputs) (fails : Prop) (clock : Nat → Nat) (search : StateT (Solver σ) Checked α)
    (P : α → Prop) : Prop :=
  ∀ s : Solver σ, s.backend.Exact I fails → s.clock = clock →
    ∃ r s', search.run s = .ok (r, s') ∧ s.Same s' ∧ P r

theorem Finds.findsBy {P : α → Prop} {search : StateT (Solver σ) Checked α} (h : Finds I fails search P)
    (clock : Nat → Nat) : FindsBy I fails clock search P := fun s hs _ ↦ h s hs

theorem finds_of_findsBy {P : α → Prop} {search : StateT (Solver σ) Checked α}
    (h : ∀ clock, FindsBy I fails clock search P) : Finds I fails search P := fun s hs ↦ h s.clock s hs rfl

theorem findsBy_bind {P : α → Prop} {Q : β → Prop} {clock : Nat → Nat}
    {search : StateT (Solver σ) Checked α} {f : α → StateT (Solver σ) Checked β}
    (h : FindsBy I fails clock search P) (hf : ∀ v, P v → FindsBy I fails clock (f v) Q) :
    FindsBy I fails clock (search >>= f) Q := by
  intro s hs hclock
  obtain ⟨v, s₁, hrun, hsame, hP⟩ := h s hs hclock
  obtain ⟨r, s₂, hrun', hsame', hQ⟩ := hf v hP s₁ (hsame.backend_eq ▸ hs) (hsame.clock_eq.trans hclock)
  refine ⟨r, s₂, ?_, hsame.trans hsame', hQ⟩
  rw [StateT.run_bind, hrun, Checked.ok_bind]
  exact hrun'

theorem findsBy_now (clock : Nat → Nat) :
    FindsBy I fails clock (Solver.now : StateT (Solver σ) Checked Nat) fun t ↦ ∃ i, t = clock i :=
  fun s _ hclock ↦ ⟨_, _, rfl, ⟨rfl, rfl, rfl, Nat.le_succ _⟩, s.readings, by rw [hclock]⟩

theorem finds_bind {P : α → Prop} {Q : β → Prop} {search : StateT (Solver σ) Checked α}
    {f : α → StateT (Solver σ) Checked β} (h : Finds I fails search P)
    (hf : ∀ v, P v → Finds I fails (f v) Q) : Finds I fails (search >>= f) Q :=
  finds_of_findsBy fun clock ↦ findsBy_bind (h.findsBy clock) fun v hv ↦ (hf v hv).findsBy clock

theorem finds_checked {P : α → Prop} {x : Checked α} {v : α} (hx : x = .ok v) (h : P v) :
    Finds I fails (liftM x : StateT (Solver σ) Checked α) P := by
  intro s _
  refine ⟨v, s, ?_, .refl s, h⟩
  rw [hx]
  rfl

theorem FindsBy.mono {P Q : α → Prop} {clock : Nat → Nat} {search : StateT (Solver σ) Checked α}
    (h : FindsBy I fails clock search P) (hPQ : ∀ v, P v → Q v) : FindsBy I fails clock search Q := by
  intro s hs hclock
  obtain ⟨r, s', hrun, hsame, hP⟩ := h s hs hclock
  exact ⟨r, s', hrun, hsame, hPQ r hP⟩

theorem Finds.mono {P Q : α → Prop} {search : StateT (Solver σ) Checked α}
    (h : Finds I fails search P) (hPQ : ∀ v, P v → Q v) : Finds I fails search Q :=
  finds_of_findsBy fun clock ↦ (h.findsBy clock).mono hPQ

namespace Ask

/-- With an exact backend, the answer is as `P` says. -/
def Answers (I : Inputs) (fails : Prop) (x : Ask σ α) (P : α → Prop) : Prop :=
  Finds I fails x.run (Answered fails P)

variable {P : α → Prop} {Q : β → Prop}

theorem answers_pure {v : α} (h : P v) : Answers I fails (pure v : Ask σ α) P := finds_pure h

theorem answers_bind {x : Ask σ α} {f : α → Ask σ β} (h : x.Answers I fails P)
    (hf : ∀ v, P v → (f v).Answers I fails Q) : (x >>= f).Answers I fails Q := by
  refine finds_bind h fun r hr ↦ ?_
  cases r with
  | ok v => exact hf v hr
  | error e => exact finds_pure (show Answered fails Q (.error e) from hr)

theorem answers_checked {x : Checked α} {v : α} (hx : x = .ok v) (h : P v) :
    Answers I fails (Ask.checked x : Ask σ α) P := by
  intro s _
  refine ⟨.ok v, s, ?_, .refl s, h⟩
  rw [hx]
  rfl

theorem Answers.mono {P' : α → Prop} {x : Ask σ α} (h : x.Answers I fails P)
    (hPP' : ∀ v, P v → P' v) : x.Answers I fails P' :=
  Finds.mono h fun _ hr ↦ hr.mono hPP'

end Ask

namespace Solver

theorem answers_consult {P : α → Prop} {ask : Backend σ → Query → σ → Except SolverError α × σ}
    (h : ∀ (b : Backend σ) (t : Option Nat) (s : σ), b.Exact I fails →
      Answered fails P (ask b ⟨c, e, t⟩ s).1) :
    (consult c e ask).Answers I fails P :=
  fun s hs ↦ ⟨_, _, rfl, ⟨rfl, rfl, rfl, Nat.le_refl _⟩, h s.backend s.timeout s.state hs⟩

theorem answers_prepare (hc : c.Valid) (he : e.WellFormed) :
    (prepare c e : Ask σ Expr).Answers I fails fun e' ↦ RefinesOn (·.HoldsAll c.toList) e e' := by
  intro s _
  have hrun : (prepare c e : Ask σ Expr).run.run s =
      if s.simplifies then c.simplify e >>= fun e' ↦ pure (.ok e', s) else pure (.ok e, s) := rfl
  obtain ⟨e', he', href⟩ := hc.exists_simplify he
  rw [hrun]
  split
  · exact ⟨.ok e', s, by rw [he']; rfl, .refl s, href⟩
  · exact ⟨.ok e, s, rfl, .refl s, RefinesOn.refl he⟩

/-- The common form of the questions about truth values: constants are answered at once. -/
def about (c : ConstraintSet) (e : Expr) (known : Nat → α)
    (ask : Backend σ → Query → σ → Except SolverError α × σ) : Ask σ α := do
  if let some v := e.value? then return known v
  let e ← prepare c e
  if let some v := e.value? then return known v
  consult c e ask

theorem answers_about {R : α → (Assignment → Nat) → Prop} {known : Nat → α}
    {ask : Backend σ → Query → σ → Except SolverError α × σ} (hc : c.Valid)
    (hsat : I.Satisfiable c) (he : e.WellFormed)
    (hcongr : ∀ v f g, (∀ a, I.Solves a c → f a = g a) → R v f → R v g)
    (hknown : ∀ n, R (known n) fun _ ↦ n)
    (hask : ∀ (b : Backend σ) (q : Query) (s : σ), b.Exact I fails → q.Sensible I →
      q.constraints = c → Answered fails (R · (·.val q.expr)) (ask b q s).1) :
    (about c e known ask).Answers I fails (R · (·.val e)) := by
  have hconst : ∀ {e n}, Expr.value? e = some n → R (known n) (·.val e) := by
    intro e n hn
    rw [Expr.value?_eq_some] at hn
    refine hcongr _ _ _ (fun a _ ↦ ?_) (hknown n)
    rw [hn, Assignment.val_const]
  unfold about
  split
  · rename_i n hn
    exact Ask.answers_pure (hconst hn)
  · refine Ask.answers_bind (answers_prepare hc he) fun e' href ↦ ?_
    have hback : ∀ v, R v (·.val e') → R v (·.val e) := fun v ↦
      hcongr v _ _ fun a ha ↦ ha.val_eq href
    split
    · rename_i n hn
      exact Ask.answers_pure (hback _ (hconst hn))
    · refine answers_consult fun b t s hb ↦ ?_
      exact (hask b ⟨c, e', t⟩ s hb ⟨hc, hsat, href.wellFormed⟩ rfl).mono hback

theorem exists_bound (he : e.WellFormed) {n : Nat} (hn : n < 2 ^ e.width) :
    (∃ b, (do Expr.mkUle e (← Expr.constant n e.width)) = .ok b ∧ b.WellFormed ∧
        ∀ a : Assignment, a.free → (a.val b ≠ 0 ↔ a.val e ≤ n)) ∧
      ∃ b, (do Expr.mkUge e (← Expr.constant n e.width)) = .ok b ∧ b.WellFormed ∧
        ∀ a : Assignment, a.free → (a.val b ≠ 0 ↔ n ≤ a.val e) := by
  have hw := he.width_range
  have hconst := Expr.constant_eq_ok.2 ⟨hw, (rfl : Expr.word n e.width = _)⟩
  have hkwf := Expr.word_wellFormed n hw.1 hw.2
  have hval : ∀ a : Assignment, a.val (Expr.word n e.width) = n := fun a ↦ by
    rw [Assignment.val_word, Nat.mod_eq_of_lt hn]
  obtain ⟨le, hle, hlewf, -⟩ := he.exists_mkCompare hkwf .ule rfl
  obtain ⟨ge, hge, hgewf, -⟩ := hkwf.exists_mkCompare he .ule rfl
  rw [hconst]
  refine ⟨⟨le, hle, hlewf, fun a ha ↦ ?_⟩, ⟨ge, hge, hgewf, fun a ha ↦ ?_⟩⟩
  · rw [Expr.val_mkCompare ha he hkwf hle, hval]
    simp [CmpOp.fold, Bits.trunc_of_lt (a.val_lt ha he), Bits.trunc_of_lt hn]
  · rw [Expr.val_mkCompare ha hkwf he hge, hval, Expr.width_word]
    simp [CmpOp.fold, Bits.trunc_of_lt (a.val_lt ha he), Bits.trunc_of_lt hn]

theorem answers_demandWord {n : Nat} (hn : n < wordLimit) :
    (demandWord n : Ask σ Unit).Answers I fails fun _ ↦ True :=
  Ask.answers_checked (demand_of hn) trivial

section

variable (hc : c.Valid) (hsat : I.Satisfiable c) (he : e.WellFormed)
include hc hsat he

theorem answers_evaluate : (evaluate c e : Ask σ Validity).Answers I fails (·.Tells I c e) := by
  have h : (about c e (fun n ↦ if n = 0 then .never else .always) (·.evaluate) : Ask σ _).Answers I fails
      fun v ↦ (v = .always ↔ ∀ a, I.Solves a c → a.val e ≠ 0) ∧
        (v = .never ↔ ∀ a, I.Solves a c → a.val e = 0) :=
    answers_about (R := fun v f ↦ (v = .always ↔ ∀ a, I.Solves a c → f a ≠ 0) ∧
      (v = .never ↔ ∀ a, I.Solves a c → f a = 0)) hc hsat he (fun v f g hfg hR ↦ ?_) (fun n ↦ ?_)
      fun b q s hb hq hqc ↦ (hb.evaluate q s hq).mono fun v hv ↦ by rw [← hqc]; exact ⟨hv.1, hv.2⟩
  · exact h.mono fun v hv ↦ ⟨hv.1, hv.2⟩
  · have hne : (∀ a, I.Solves a c → f a ≠ 0) ↔ ∀ a, I.Solves a c → g a ≠ 0 :=
      forall₂_congr fun a ha ↦ by rw [hfg a ha]
    have heq : (∀ a, I.Solves a c → f a = 0) ↔ ∀ a, I.Solves a c → g a = 0 :=
      forall₂_congr fun a ha ↦ by rw [hfg a ha]
    rwa [hne, heq] at hR
  · obtain ⟨a, ha⟩ := hsat
    by_cases hn : n = 0
    · simpa [hn] using ⟨a, ha⟩
    · simpa [hn] using ⟨a, ha⟩

theorem answers_mustBeTrue : (mustBeTrue c e : Ask σ Bool).Answers I fails fun v ↦
    v = true ↔ ∀ a, I.Solves a c → a.val e ≠ 0 := by
  refine answers_about (R := fun v f ↦ v = true ↔ ∀ a, I.Solves a c → f a ≠ 0) hc hsat he
    (fun v f g hfg hR ↦ ?_) (fun n ↦ ?_)
    fun b q s hb hq hqc ↦ (hb.mustBeTrue q s hq).mono fun v hv ↦ by rw [← hqc]; exact hv
  · have hne : (∀ a, I.Solves a c → f a ≠ 0) ↔ ∀ a, I.Solves a c → g a ≠ 0 :=
      forall₂_congr fun a ha ↦ by rw [hfg a ha]
    rwa [hne] at hR
  · obtain ⟨a, ha⟩ := hsat
    by_cases hn : n = 0
    · simpa [hn] using ⟨a, ha⟩
    · simp [hn]

theorem answers_mustBeFalse : (mustBeFalse c e : Ask σ Bool).Answers I fails fun v ↦
    v = true ↔ ∀ a, I.Solves a c → a.val e = 0 := by
  have hz : e.isZero.WellFormed := (Expr.isZero_refines (a := ⟨true, {}⟩) he).wellFormed
  refine (answers_mustBeTrue hc hsat hz).mono fun v hv ↦ hv.trans ?_
  refine forall₂_congr fun a ha ↦ ?_
  rw [Expr.val_isZero ha.free he]
  simp

theorem answers_mayBeTrue : (mayBeTrue c e : Ask σ Bool).Answers I fails fun v ↦
    v = true ↔ ∃ a, I.Solves a c ∧ a.val e ≠ 0 := by
  refine Ask.answers_bind (answers_mustBeFalse hc hsat he) fun v hv ↦ Ask.answers_pure ?_
  have hnot : (∃ a, I.Solves a c ∧ a.val e ≠ 0) ↔ ¬∀ a, I.Solves a c → a.val e = 0 := by
    simp
  rw [hnot, ← hv]
  simp

/-- A constant of the width of an expression, and the value of the expression in some solution. -/
structure Example (I : Inputs) (c : ConstraintSet) (e v : Expr) : Prop where
  isConst : v.isConst = true
  width_eq : v.width = e.width
  wellFormed : v.WellFormed
  attained : ∃ a, I.Solves a c ∧ a.val e = a.val v

theorem answers_value : (value c e : Ask σ Expr).Answers I fails (Example I c e) := by
  unfold value
  split
  · rename_i hconst
    obtain ⟨a, ha⟩ := hsat
    exact Ask.answers_pure ⟨hconst, rfl, he, a, ha, rfl⟩
  · refine Ask.answers_bind (answers_prepare hc he) fun e' href ↦ ?_
    split
    · rename_i hconst
      obtain ⟨a, ha⟩ := hsat
      exact Ask.answers_pure ⟨hconst, href.width_eq, href.wellFormed, a, ha, (ha.val_eq href).symm⟩
    · refine Ask.answers_bind (P := fun v ↦ ∃ a, I.Solves a c ∧ a.val e' = v)
        (answers_consult fun b t s hb ↦ hb.value ⟨c, e', t⟩ s ⟨hc, hsat, href.wellFormed⟩)
        fun v hv ↦ ?_
      have hw := href.wellFormed.width_range
      have hconst := Expr.constant_eq_ok.2 ⟨hw, (rfl : Expr.word v e'.width = _)⟩
      refine Ask.answers_checked hconst ⟨rfl, href.width_eq, Expr.word_wellFormed _ hw.1 hw.2, ?_⟩
      obtain ⟨a, ha, rfl⟩ := hv
      refine ⟨a, ha, ?_⟩
      rw [Assignment.val_word, Nat.mod_eq_of_lt (a.val_lt ha.free href.wellFormed), ha.val_eq href]

omit hc hsat in
theorem lt_wordLimit {n : Nat} (hn : n < 2 ^ e.width) : n < wordLimit :=
  Nat.lt_of_lt_of_le hn (Nat.pow_le_pow_right (by decide) he.width_range.2)

/-- A search from below keeps a value that is at most `high`, and no value below `low`. So where the two meet
is the least value, even if not every number up to it is one. -/
theorem answers_leastBound {low high : Nat} (hlow : ∀ v ∈ I.values c e, low ≤ v)
    (hhigh : ∃ v ∈ I.values c e, v ≤ high) (hlt : high < 2 ^ e.width) :
    (leastBound c e low high : Ask σ Nat).Answers I fails (IsLeast (I.values c e)) := by
  induction hn : high - low using Nat.strongRecOn generalizing low high with
  | ind n ih =>
    rw [leastBound]
    split
    · have hmiddle : low + (high - low) / 2 < 2 ^ e.width := by omega
      have hnext : low + (high - low) / 2 + 1 < 2 ^ e.width := by omega
      obtain ⟨below, hbelow, hwf, hval⟩ := (exists_bound he hmiddle).1
      refine Ask.answers_bind (answers_demandWord (lt_wordLimit he hmiddle)) fun _ _ ↦ ?_
      refine Ask.answers_bind (Ask.answers_checked hbelow rfl) ?_
      rintro _ rfl
      refine Ask.answers_bind (answers_mayBeTrue hc hsat hwf) fun b hb ↦ ?_
      split
      · obtain ⟨a, ha, hle⟩ := hb.1 ‹_›
        exact ih _ (by omega) hlow ⟨a.val e, ⟨a, ha, rfl⟩, (hval a ha.free).1 hle⟩ hmiddle rfl
      · rename_i hnone
        refine Ask.answers_bind (answers_demandWord (lt_wordLimit he hnext)) fun _ _ ↦ ?_
        refine ih _ (by omega) ?_ hhigh hlt rfl
        rintro _ ⟨a, ha, rfl⟩
        exact Nat.lt_of_not_le fun hle ↦ hnone (hb.2 ⟨a, ha, (hval a ha.free).2 hle⟩)
    · obtain ⟨v, hv, hle⟩ := hhigh
      have hmeet : low = v := Nat.le_antisymm (hlow v hv) (by omega)
      exact Ask.answers_pure ⟨hmeet ▸ hv, hlow⟩

theorem answers_greatestBound {low high : Nat} (hhigh : ∀ v ∈ I.values c e, v ≤ high)
    (hlow : ∃ v ∈ I.values c e, low ≤ v) (hlt : high < 2 ^ e.width) :
    (greatestBound c e low high : Ask σ Nat).Answers I fails (IsGreatest (I.values c e)) := by
  induction hn : high - low using Nat.strongRecOn generalizing low high with
  | ind n ih =>
    rw [greatestBound]
    split
    · have hmiddle : low + (high - low) / 2 + 1 < 2 ^ e.width := by omega
      obtain ⟨above, habove, hwf, hval⟩ := (exists_bound he hmiddle).2
      refine Ask.answers_bind (answers_demandWord (lt_wordLimit he hmiddle)) fun _ _ ↦ ?_
      refine Ask.answers_bind (Ask.answers_checked habove rfl) ?_
      rintro _ rfl
      refine Ask.answers_bind (answers_mayBeTrue hc hsat hwf) fun b hb ↦ ?_
      split
      · obtain ⟨a, ha, hle⟩ := hb.1 ‹_›
        exact ih _ (by omega) hhigh ⟨a.val e, ⟨a, ha, rfl⟩, (hval a ha.free).1 hle⟩ hlt rfl
      · rename_i hnone
        refine ih _ (by omega) ?_ hlow (by omega) rfl
        rintro _ ⟨a, ha, rfl⟩
        exact Nat.le_sub_one_of_lt <| Nat.lt_of_not_le fun hle ↦
          hnone (hb.2 ⟨a, ha, (hval a ha.free).2 hle⟩)
    · obtain ⟨v, hv, hle⟩ := hlow
      have hmeet : low = v := Nat.le_antisymm hle (Nat.le_trans (hhigh v hv) (by omega))
      exact Ask.answers_pure ⟨hmeet ▸ hv, fun w hw ↦ Nat.le_trans (hhigh w hw) (by omega)⟩

theorem answers_range : (range c e : Ask σ _).Answers I fails fun p ↦
    IsLeast (I.values c e) p.1 ∧ IsGreatest (I.values c e) p.2 := by
  unfold range
  split
  · rename_i n hn
    rw [Expr.value?_eq_some] at hn
    have hval : ∀ a : Assignment, a.val e = n := fun a ↦ by rw [hn, Assignment.val_const]
    have hattained : n ∈ I.values c e := hsat.imp fun a ha ↦ ⟨ha, hval a⟩
    have honly : ∀ v ∈ I.values c e, v = n := fun _ ⟨a, _, hv⟩ ↦ hv.symm.trans (hval a)
    exact Ask.answers_pure ⟨⟨hattained, fun v hv ↦ Nat.le_of_eq (honly v hv).symm⟩,
      ⟨hattained, fun v hv ↦ Nat.le_of_eq (honly v hv)⟩⟩
  · refine Ask.answers_bind (answers_value hc hsat he) fun v hv ↦ ?_
    obtain ⟨n, hn⟩ := Expr.isConst_iff.1 hv.isConst
    have hattained : n ∈ I.values c e := by
      obtain ⟨a, ha, heq⟩ := hv.attained
      exact ⟨a, ha, by rw [heq, hn, Assignment.val_const]⟩
    have hvalue : ∀ w ∈ I.values c e, w < 2 ^ e.width := by
      rintro _ ⟨a, ha, rfl⟩
      exact a.val_lt ha.free he
    have hmask : Bits.mask e.width + 1 = 2 ^ e.width := by
      rw [Bits.mask, Nat.min_eq_left he.width_range.2]
      exact Nat.sub_add_cancel (Nat.two_pow_pos _)
    rw [hn, Expr.value?]
    refine Ask.answers_bind (answers_leastBound hc hsat he (fun _ _ ↦ Nat.zero_le _)
      ⟨n, hattained, Nat.le_refl n⟩ (hvalue n hattained)) fun least hleast ↦ ?_
    refine Ask.answers_bind (answers_greatestBound hc hsat he
      (fun w hw ↦ Nat.le_of_lt_succ (Nat.lt_of_lt_of_eq (hvalue w hw) hmask.symm))
      ⟨n, hattained, Nat.le_refl n⟩ (Nat.lt_of_lt_of_eq (Nat.lt_succ_self _) hmask)) fun greatest hgreatest ↦ ?_
    exact Ask.answers_pure ⟨hleast, hgreatest⟩

end

theorem Example.exists_value {v : Expr} (h : Example I c e v) :
    ∃ n, v.value? = some n ∧ ∃ a, I.Solves a c ∧ a.val e = n := by
  obtain ⟨n, hn⟩ := Expr.isConst_iff.1 h.isConst
  have hvalue := Expr.value?_eq_some.2 hn
  obtain ⟨a, ha, hattained⟩ := h.attained
  exact ⟨n, hvalue, a, ha, hattained.trans (a.val_of_value? hvalue)⟩

theorem answers_initialValues (hc : c.Valid) (hsat : I.Satisfiable c) (arrays : List NamedArray) :
    (initialValues c arrays : Ask σ _).Answers I fails fun _ ↦ True := by
  unfold initialValues
  split
  · exact Ask.answers_pure trivial
  · exact answers_consult fun b t s hb ↦
      hb.initialValues ⟨c, .bool false, t⟩ arrays s ⟨hc, hsat, Expr.bool_wellFormed false⟩

end Solver

end Symex
