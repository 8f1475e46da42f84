import Mathlib.Data.List.Infix
import Symex.Smt.Session

namespace Symex.Smt

/-- After a greeting, which may be cut off, `debt` scopes are closed that were never opened. From then on
no scope is closed that is not open, and `depth` of them are open at the end. -/
def Nests (b : Binary) (debt depth : Nat) (commands : List Command) : Prop :=
  ∃ front rest, commands = front ++ List.replicate debt .pop ++ rest ∧ front <+: b.greeting ∧
    (∀ part, part <+: rest → part.count .pop ≤ part.count .push) ∧
    rest.count .push = rest.count .pop + depth

def Owes (b : Binary) (debt : Nat) (commands : List Command) : Prop :=
  ∃ front, commands = front ++ List.replicate debt .pop ∧ front <+: b.greeting

/-- The command neither opens nor closes a scope. -/
def Command.Neutral (c : Command) : Prop := c ≠ .push ∧ c ≠ .pop

section Streams

variable {b : Binary} {debt depth : Nat} {commands sent : List Command}

theorem Owes.nests (h : Owes b debt commands) : Nests b debt 0 commands := by
  obtain ⟨front, rfl, hfront⟩ := h
  refine ⟨front, [], by simp, hfront, ?_, rfl⟩
  intro part hpart
  simp [List.prefix_nil.1 hpart]

theorem Owes.pop (h : Owes b debt commands) : Owes b (debt + 1) (commands ++ [.pop]) := by
  obtain ⟨front, rfl, hfront⟩ := h
  exact ⟨front, by simp [List.replicate_succ'], hfront⟩

theorem Nests.concat {depth' : Nat} {c : Command} (h : Nests b debt depth commands)
    (hc : [c].count .push + depth = [c].count .pop + depth') :
    Nests b debt depth' (commands ++ [c]) := by
  obtain ⟨front, rest, rfl, hfront, hrest, hdepth⟩ := h
  refine ⟨front, rest ++ [c], by simp, hfront, ?_, ?_⟩
  · intro part hpart
    rcases List.prefix_concat_iff.1 hpart with rfl | hpart
    · rw [List.count_append, List.count_append]
      omega
    · exact hrest part hpart
  · rw [List.count_append, List.count_append]
    omega

theorem Nests.push (h : Nests b debt depth commands) :
    Nests b debt (depth + 1) (commands ++ [.push]) := by
  refine h.concat ?_
  simp
  omega

theorem Nests.pop (h : Nests b debt (depth + 1) commands) :
    Nests b debt depth (commands ++ [.pop]) := by
  refine h.concat ?_
  simp
  omega

theorem Nests.append_neutral (h : Nests b debt depth commands) (hsent : ∀ c ∈ sent, c.Neutral) :
    Nests b debt depth (commands ++ sent) := by
  induction sent generalizing commands with
  | nil => rwa [List.append_nil]
  | cons c rest ih =>
    have hc := hsent c List.mem_cons_self
    rw [← List.singleton_append, ← List.append_assoc]
    refine ih (h.concat ?_) fun c hc ↦ hsent c (List.mem_cons_of_mem _ hc)
    simp [hc.1, hc.2]

end Streams

/-! ## Scripts -/

namespace Build

variable {α β : Type}

/-- What is added to a script neither opens nor closes scopes. -/
def Neutral (b : Build α) : Prop :=
  ∀ s : Script, (∀ c ∈ s.preamble, c.Neutral) → ∀ c ∈ (b.run s).2.preamble, c.Neutral

theorem neutral_pure (x : α) : Neutral (pure x) := fun _ h ↦ h

theorem neutral_bind {b : Build α} {k : α → Build β} (hb : Neutral b) (hk : ∀ x, Neutral (k x)) :
    Neutral (b >>= k) := by
  intro s hs
  exact hk (b.run s).1 (b.run s).2 (hb s hs)

theorem neutral_get_bind {k : Script → Build α} (hk : ∀ s, Neutral (k s)) : Neutral (get >>= k) := by
  intro s hs
  exact hk s s hs

theorem neutral_modify {f : Script → Script} (hf : ∀ s, (f s).preamble = s.preamble) :
    Neutral (modify f) := by
  intro s hs
  change ∀ c ∈ (f s).preamble, c.Neutral
  rwa [hf s]

theorem neutral_define (symbol : Nat → Symbol) (kind : Kind) (body : Term) :
    Neutral (define symbol kind body) := by
  intro s hs c hc
  rw [Script.preamble] at hc
  simp only [define, StateT.run, Array.toList_push, ← List.append_assoc] at hc
  rcases List.mem_append.1 hc with hc | hc
  · exact hs c hc
  · obtain rfl := List.mem_singleton.1 hc
    exact ⟨nofun, nofun⟩

theorem neutral_declare (symbol : Symbol) (A : NamedArray) :
    Neutral (modify fun s ↦ { s with
      declarations := s.declarations.push (.declare symbol)
      inputs := s.inputs.insert A.name A }) := by
  intro s hs c hc
  change c ∈ (s.declarations.push (.declare symbol)).toList ++ s.definitions.toList at hc
  rw [Array.toList_push, List.append_assoc, List.mem_append, List.mem_append] at hc
  rcases hc with hc | hc | hc
  · exact hs c (List.mem_append_left _ hc)
  · obtain rfl := List.mem_singleton.1 hc
    exact ⟨nofun, nofun⟩
  · exact hs c (List.mem_append_right _ hc)

theorem neutral_root (A : NamedArray) : Neutral (root A) := by
  refine neutral_get_bind fun s ↦ ?_
  split
  · exact neutral_pure _
  · have hroot : ∀ symbol, Neutral (do
        modify fun s ↦ { s with roots := s.roots.insert A symbol }
        return symbol) :=
      fun symbol ↦ neutral_bind (neutral_modify fun _ ↦ rfl) fun _ ↦ neutral_pure symbol
    dsimp only
    split
    · exact neutral_bind (neutral_define _ _ _) hroot
    · exact neutral_bind (neutral_declare _ A) fun _ ↦ neutral_bind (neutral_pure _) hroot

theorem neutral_value (e : Expr) {body : Build Term} (h : Neutral body) : Neutral (value e body) := by
  refine neutral_get_bind fun s ↦ ?_
  split
  · exact neutral_pure _
  · refine neutral_bind h fun t ↦ neutral_bind (neutral_define _ _ _) fun symbol ↦ ?_
    exact neutral_bind (neutral_modify fun _ ↦ rfl) fun _ ↦ neutral_pure _

mutual

theorem neutral_term (e : Expr) : Neutral (term e) := by
  match e with
  | .const v w =>
    rw [term]
    exact neutral_pure _
  | .read u i =>
    rw [term]
    refine neutral_value _ (neutral_bind (neutral_root _) fun below ↦ ?_)
    refine neutral_bind (neutral_chain below u) fun array ↦ ?_
    exact neutral_bind (neutral_term i) fun _ ↦ neutral_pure _
  | .select c t f =>
    rw [term]
    refine neutral_value _ (neutral_bind (neutral_term c) fun _ ↦ ?_)
    refine neutral_bind (neutral_term t) fun _ ↦ ?_
    exact neutral_bind (neutral_term f) fun _ ↦ neutral_pure _
  | .concat l r | .binary _ l r | .compare _ l r =>
    rw [term]
    refine neutral_value _ (neutral_bind (neutral_term l) fun _ ↦ ?_)
    exact neutral_bind (neutral_term r) fun _ ↦ neutral_pure _
  | .extract x _ _ | .zext x _ | .sext x _ | .not x =>
    rw [term]
    exact neutral_value _ (neutral_bind (neutral_term x) fun _ ↦ neutral_pure _)

theorem neutral_chain (below : Symbol) (u : Updates) : Neutral (chain below u) := by
  match u with
  | .base A =>
    rw [chain]
    exact neutral_pure _
  | .write i v older =>
    rw [chain]
    refine neutral_get_bind fun s ↦ ?_
    split
    · exact neutral_pure _
    · refine neutral_bind (neutral_chain below older) fun array ↦ ?_
      refine neutral_bind (neutral_term i) fun i' ↦ neutral_bind (neutral_term v) fun v' ↦ ?_
      refine neutral_bind (neutral_define _ _ _) fun symbol ↦ ?_
      exact neutral_bind (neutral_modify fun _ ↦ rfl) fun _ ↦ neutral_pure _

end

theorem neutral_mapM {f : α → Build β} (hf : ∀ x, Neutral (f x)) (l : List α) :
    Neutral (l.mapM f) := by
  induction l with
  | nil => exact neutral_pure _
  | cons x rest ih =>
    rw [List.mapM_cons]
    exact neutral_bind (hf x) fun _ ↦ neutral_bind ih fun _ ↦ neutral_pure _

theorem neutral_forIn {f : α → PUnit → Build (ForInStep PUnit)} (hf : ∀ x u, Neutral (f x u))
    (l : List α) (u : PUnit) : Neutral (forIn l u f) := by
  induction l generalizing u with
  | nil => exact neutral_pure _
  | cons x rest ih =>
    rw [List.forIn_cons]
    refine neutral_bind (hf x u) fun step ↦ ?_
    cases step with
    | done u => exact neutral_pure _
    | yield u => exact ih u

end Build

/-! ## Processes -/

namespace Session

variable {p : Process} {replies : List Reply}

@[simp] theorem received_react (p : Process) (replies : List Reply) (line : String) :
    (react p replies line).1.received = p.received := by
  unfold react
  split
  · split <;> rfl
  · rfl

@[simp] theorem failed_react (p : Process) (replies : List Reply) (line : String) :
    (react p replies line).1.failed = p.failed := by
  unfold react
  split
  · split <;> rfl
  · rfl

theorem foldl_react (lines : List String) (p : Process) (replies : List Reply) :
    let after := lines.foldl (fun (p, replies) line ↦ react p replies line) (p, replies)
    after.1.received = p.received ∧ after.1.failed = p.failed := by
  induction lines generalizing p replies with
  | nil => exact ⟨rfl, rfl⟩
  | cons line rest ih =>
    have h := ih (react p replies line).1 (react p replies line).2
    rwa [received_react, failed_react] at h

theorem received_deliver (p : Process) (replies : List Reply) (c : Command) :
    (deliver p replies c).1.received = if p.alive then p.received ++ [c] else p.received := by
  unfold deliver
  split
  · exact (foldl_react _ _ _).1
  · rfl

theorem failed_deliver (p : Process) (replies : List Reply) (c : Command) :
    (deliver p replies c).1.failed = p.failed := by
  unfold deliver
  split
  · exact (foldl_react _ _ _).2
  · rfl

theorem deliverAll_of_not_alive (h : p.alive = false) (commands : List Command) :
    deliverAll p replies commands = (p, replies) := by
  induction commands with
  | nil => rfl
  | cons c rest ih =>
    have hc : deliver p replies c = (p, replies) := by simp [deliver, h]
    rw [deliverAll, List.foldl_cons]
    simp only [hc]
    exact ih

theorem received_deliverAll (h : p.alive = true) (replies : List Reply) (c : Command)
    (rest : List Command) :
    ∃ sent, sent <+: rest ∧
      (deliverAll p replies (c :: rest)).1.received = p.received ++ [c] ++ sent := by
  induction rest generalizing p replies c with
  | nil =>
    refine ⟨[], List.prefix_rfl, ?_⟩
    rw [List.append_nil]
    exact (received_deliver p replies c).trans (if_pos h)
  | cons c' rest ih =>
    have hreceived : (deliver p replies c).1.received = p.received ++ [c] := by
      rw [received_deliver, if_pos h]
    have hrun : deliverAll p replies (c :: c' :: rest) =
        deliverAll (deliver p replies c).1 (deliver p replies c).2 (c' :: rest) := rfl
    rw [hrun, ← hreceived]
    cases halive : (deliver p replies c).1.alive with
    | false =>
      refine ⟨[], List.nil_prefix, ?_⟩
      rw [deliverAll_of_not_alive halive, List.append_nil]
    | true =>
      obtain ⟨sent, hsent, hr⟩ := ih halive _ c'
      refine ⟨c' :: sent, (List.prefix_cons_inj c').2 hsent, ?_⟩
      rw [hr, List.append_assoc, List.singleton_append]

theorem failed_deliverAll (p : Process) (replies : List Reply) (commands : List Command) :
    (deliverAll p replies commands).1.failed = p.failed := by
  induction commands generalizing p replies with
  | nil => rfl
  | cons c rest ih =>
    have h := ih (deliver p replies c).1 (deliver p replies c).2
    rwa [failed_deliver] at h

theorem owes_greeted (b : Binary) (replies : List Reply) :
    Owes b 0 (deliverAll {} replies b.greeting).1.received := by
  cases hgreeting : b.greeting with
  | nil => exact ⟨[], rfl, List.nil_prefix⟩
  | cons c rest =>
    obtain ⟨sent, hsent, hreceived⟩ := received_deliverAll (p := {}) rfl replies c rest
    rw [hreceived]
    exact ⟨c :: sent, by simp, by rw [hgreeting]; exact (List.prefix_cons_inj c).2 hsent⟩

end Session

/-! ## Sessions -/

namespace Session

/-- How many scopes the process after `n` others may close without having opened them. -/
def maxDebt (n : Nat) : Nat := if n = 0 then 0 else 2

/-- What earlier processes were told is nested up to their debts. -/
def Orderly (s : Session) : Prop :=
  ∀ i commands, s.past[i]? = some commands →
    ∃ debt ≤ maxDebt i, ∃ depth, Nests s.binary debt depth commands

/-- A process is in use, in which `depth` scopes are open. -/
def Working (s : Session) (depth : Nat) : Prop :=
  s.Orderly ∧ ∃ p, s.process = some p ∧ p.failed = false ∧
    ∃ debt ≤ maxDebt s.past.length, Nests s.binary debt depth p.received

def Broken (s : Session) : Prop :=
  s.Orderly ∧ ∃ p, s.process = some p ∧ p.failed = true ∧
    ∃ debt ≤ maxDebt s.past.length, ∃ depth, Nests s.binary debt depth p.received

/-- The process was replaced while `depth` scopes more were still to be closed. -/
def Replaced (s : Session) (depth : Nat) : Prop :=
  s.Orderly ∧ s.past ≠ [] ∧ ∃ p, s.process = some p ∧ p.failed = false ∧
    ∃ debt, debt + depth ≤ 2 ∧ Owes s.binary debt p.received

/-- There is no process, because none was needed yet or none can be started. -/
def Absent (s : Session) (depth : Nat) : Prop :=
  s.Orderly ∧ s.process = none ∧ (depth = 0 ∨ s.available = false)

/-- What can be when `depth` scopes are to be closed. -/
inductive Tidy (s : Session) (depth : Nat) : Prop where
  | working (h : s.Working depth)
  | broken (h : s.Broken)
  | replaced (h : s.Replaced depth)
  | absent (h : s.Absent depth)

variable {s : Session} {depth : Nat}

theorem maxDebt_of_ne_nil (h : s.past ≠ []) : maxDebt s.past.length = 2 := by
  have hlength : s.past.length ≠ 0 := by simpa using h
  simp [maxDebt, hlength]

theorem Orderly.retire (h : s.Orderly) {p : Process} {debt : Nat}
    (hdebt : debt ≤ maxDebt s.past.length) (hp : Nests s.binary debt depth p.received) :
    Orderly { s with process := none, past := s.past ++ [p.received] } := by
  intro i commands hi
  rw [List.getElem?_append] at hi
  split at hi
  · exact h i commands hi
  · rename_i hge
    obtain ⟨hlt, rfl⟩ := List.getElem?_eq_some_iff.1 hi
    have hi' : i = s.past.length := by simp at hlt; omega
    subst hi'
    exact ⟨debt, hdebt, depth, by simpa using hp⟩

theorem Replaced.working (h : s.Replaced 0) : s.Working 0 := by
  obtain ⟨horderly, hpast, p, hp, hfailed, debt, hdebt, howes⟩ := h
  refine ⟨horderly, p, hp, hfailed, debt, ?_, howes.nests⟩
  rw [maxDebt_of_ne_nil hpast]
  omega

end Session

/-! ## Talks -/

namespace Talk

variable {α β : Type} {s : Session}

/-- A talk that begins in `s` ends as `P` says, with a result or an error. -/
structure Ends (talk : Talk α) (s : Session) (P : Except SolverError α → Session → Prop) : Prop where
  result : P (talk.run.run s).1 (talk.run.run s).2

variable {P P' : Except SolverError α → Session → Prop} {Q : Except SolverError β → Session → Prop}
  {talk : Talk α} {k : α → Talk β}

theorem Ends.mono (h : talk.Ends s P) (hP : ∀ r s', P r s' → P' r s') : talk.Ends s P' :=
  ⟨hP _ _ h.result⟩

theorem ends_pure {x : α} (h : P (.ok x) s) : (pure x : Talk α).Ends s P := ⟨h⟩

theorem ends_throw {e : SolverError} (h : P (.error e) s) : (throw e : Talk α).Ends s P := ⟨h⟩

theorem ends_bind (h : talk.Ends s P) (hok : ∀ x s', P (.ok x) s' → (k x).Ends s' Q)
    (herror : ∀ e s', P (.error e) s' → Q (.error e) s') : (talk >>= k).Ends s Q := by
  obtain ⟨h⟩ := h
  constructor
  rw [ExceptT.run_bind, StateT.run_bind]
  cases hr : talk.run.run s with
  | mk r s' =>
    rw [hr] at h
    cases r with
    | ok x => exact (hok x s' h).result
    | error e => exact herror e s' h

theorem ends_get_bind {k : Session → Talk β} (h : (k s).Ends s Q) : (get >>= k).Ends s Q := ⟨h.result⟩

theorem ends_modify {f : Session → Session} {P : Except SolverError Unit → Session → Prop}
    (h : P (.ok ()) (f s)) : (modify f : Talk Unit).Ends s P := ⟨h⟩

theorem ends_attempt_bind {k : Except SolverError α → Talk β} (h : talk.Ends s P)
    (hk : ∀ r s', P r s' → (k r).Ends s' Q) : (attempt talk >>= k).Ends s Q :=
  ⟨(hk _ _ h.result).result⟩

theorem ends_ofExcept {r : Except SolverError α} (h : P r s) :
    (MonadExcept.ofExcept r : Talk α).Ends s P := by
  cases r <;> exact ⟨h⟩

/-! ### Commands -/

variable {p : Process}

theorem ends_process_of_usable {P : Except SolverError Process → Session → Prop}
    (hp : s.process = some p) (hfailed : p.failed = false) (h : P (.ok p) s) :
    process.Ends s P := by
  have hdiscard : discard.Ends s fun r s' ↦ r = .ok () ∧ s' = s := by
    refine ends_modify ⟨rfl, ?_⟩
    simp [hp, hfailed]
  refine ends_bind hdiscard ?_ fun e s' he ↦ by simp at he
  rintro - s' ⟨-, rfl⟩
  refine ends_get_bind ?_
  rw [hp]
  exact ends_pure h

theorem ends_process_bind {k : Process → Talk β} (hp : s.process = some p)
    (hfailed : p.failed = false) (h : (k p).Ends s Q) : (process >>= k).Ends s Q := by
  refine ends_bind (ends_process_of_usable (P := fun r s' ↦ r = .ok p ∧ s' = s) hp hfailed
    ⟨rfl, rfl⟩) ?_ fun e s' h ↦ by simp at h
  intro p' s' h'
  obtain ⟨hp', rfl⟩ := h'
  obtain rfl : p' = p := by simpa using hp'
  exact h

theorem ends_process_of_none {P : Except SolverError Process → Session → Prop}
    (hp : s.process = none)
    (hok : s.available = true → P (.ok (Session.deliverAll {} s.replies s.binary.greeting).1)
      { s with
        process := some (Session.deliverAll {} s.replies s.binary.greeting).1
        replies := (Session.deliverAll {} s.replies s.binary.greeting).2 })
    (herror : s.available = false → ∀ e, P (.error e) s) : process.Ends s P := by
  have hdiscard : discard.Ends s fun r s' ↦ r = .ok () ∧ s' = s := by
    refine ends_modify ⟨rfl, ?_⟩
    simp [hp]
  refine ends_bind hdiscard ?_ fun e s' he ↦ by simp at he
  rintro - s' ⟨-, rfl⟩
  refine ends_get_bind ?_
  rw [hp]
  by_cases havailable : s'.available = true
  · simp only [havailable, if_true]
    exact ⟨havailable ▸ hok havailable⟩
  · simp only [havailable]
    exact ⟨herror (by simpa using havailable) _⟩

theorem ends_process_of_failed {P : Except SolverError Process → Session → Prop}
    (hp : s.process = some p) (hfailed : p.failed = true)
    (h : process.Ends { s with process := none, past := s.past ++ [p.received] } P) :
    process.Ends s P := by
  have hdiscard : discard.run.run s =
      discard.run.run { s with process := none, past := s.past ++ [p.received] } := by
    change (_, _) = (_, _)
    simp [hp, hfailed]
  obtain ⟨h⟩ := h
  constructor
  unfold process at h ⊢
  rw [ExceptT.run_bind, StateT.run_bind] at h ⊢
  rwa [hdiscard]

theorem ends_reject {message : String}
    (h : ∀ e, P (.error e) { s with process := some { p with failed := true } }) :
    (reject p message : Talk α).Ends s P := ⟨h _⟩

theorem ends_reject_bind {message : String}
    (h : ∀ e, Q (.error e) { s with process := some { p with failed := true } }) :
    ((reject p message : Talk α) >>= k).Ends s Q := ⟨h _⟩

theorem ends_send_to {c : Command} {rest : List Command}
    {P : Except SolverError Unit → Session → Prop}
    (hprocess : process.Ends s fun r s' ↦
      match r with
      | .ok p =>
        (p.alive = true → ∀ p' replies sent, sent <+: rest → p'.failed = p.failed →
          p'.received = p.received ++ [c] ++ sent →
          P (.ok ()) { s' with process := some p', replies := replies }) ∧
        (p.alive = false → ∀ e, P (.error e) { s' with process := some { p with failed := true } })
      | .error e => P (.error e) s') :
    (send (c :: rest)).Ends s P := by
  refine ends_bind hprocess ?_ fun e s' h ↦ h
  intro p s' h
  obtain ⟨halive, hdead⟩ := h
  cases h : p.alive with
  | true =>
    obtain ⟨sent, hsent, hreceived⟩ := Session.received_deliverAll h s'.replies c rest
    simp only [if_true]
    exact ends_modify (halive h _ _ sent hsent (Session.failed_deliverAll ..) hreceived)
  | false =>
    simp only [Bool.false_eq_true, if_false]
    exact ends_reject (hdead h)

/-- A result leaves the process in use, with `depth` scopes open; after an error it is not used again. -/
def Sent (depth : Nat) (r : Except SolverError α) (s : Session) : Prop :=
  match r with
  | .ok _ => s.Working depth
  | .error _ => s.Broken

theorem ends_send_working {c : Command} {rest : List Command} {depth depth' : Nat}
    (hs : s.Working depth)
    (hc : ∀ debt commands, Nests s.binary debt depth commands →
      Nests s.binary debt depth' (commands ++ [c]))
    (hrest : ∀ c ∈ rest, c.Neutral) :
    (send (c :: rest)).Ends s (Sent depth') := by
  obtain ⟨horderly, p, hp, hfailed, debt, hdebt, hnests⟩ := hs
  refine ends_send_to (ends_process_of_usable hp hfailed ⟨?_, ?_⟩)
  · intro _ p' replies sent hsent hfailed' hreceived
    refine ⟨horderly, p', rfl, hfailed'.trans hfailed, debt, hdebt, ?_⟩
    rw [hreceived]
    exact (hc debt _ hnests).append_neutral fun c hc ↦ hrest c (hsent.subset hc)
  · intro _ e
    exact ⟨horderly, _, rfl, rfl, debt, hdebt, depth, hnests⟩

theorem ends_send_neutral {c : Command} {depth : Nat} (hs : s.Working depth) (hc : c.Neutral) :
    (send [c]).Ends s (Sent depth) := by
  refine ends_send_working hs (fun debt commands h ↦ ?_) (by simp)
  exact h.append_neutral (by simpa using hc)

theorem ends_receive {depth : Nat} (hs : s.Working depth) :
    receive.Ends s (Sent depth) := by
  obtain ⟨horderly, p, hp, hfailed, debt, hdebt, hnests⟩ := hs
  unfold receive
  refine ends_process_bind hp hfailed ?_
  obtain ⟨response, output⟩ := takeResponse p.output
  have hworking : Session.Working { s with process := some { p with output } } depth :=
    ⟨horderly, _, rfl, hfailed, debt, hdebt, hnests⟩
  have hbroken : Session.Broken { s with process := some { p with output, failed := true } } :=
    ⟨horderly, _, rfl, rfl, debt, hdebt, depth, hnests⟩
  refine ends_bind (P := fun r s' ↦ r = .ok () ∧ s' = { s with process := some { p with output } })
    (ends_modify ⟨rfl, rfl⟩) ?_ fun e s' h ↦ by simp at h
  intro _ s' h
  obtain ⟨-, rfl⟩ := h
  dsimp only
  by_cases herror : (trimStart response).startsWith "(error" = true
  · rw [if_pos herror]
    apply ends_reject_bind
    intro _
    exact hbroken
  · rw [if_neg herror]
    by_cases hempty : response.isEmpty = true
    · rw [if_pos hempty]
      apply ends_reject_bind
      intro _
      exact hbroken
    · rw [if_neg hempty]
      exact ends_pure hworking

/-! ### Work in a scope -/

/-- A result leaves the process in use, with `depth` scopes open; after an error as many are to be
closed. -/
def Left (depth : Nat) (r : Except SolverError α) (s : Session) : Prop :=
  match r with
  | .ok _ => s.Working depth
  | .error _ => s.Tidy depth

variable {depth : Nat}

theorem ends_left_bind (h : talk.Ends s (Left depth))
    (hk : ∀ x s', s'.Working depth → (k x).Ends s' (Left depth)) :
    (talk >>= k).Ends s (Left depth) :=
  ends_bind h (fun x s' hs ↦ hk x s' hs) fun _ _ hs ↦ hs

theorem Ends.left (h : talk.Ends s (Sent depth)) : talk.Ends s (Left depth) := by
  refine h.mono fun r s' hr ↦ ?_
  cases r with
  | ok x => exact hr
  | error e => exact .broken hr

theorem ends_left_pure {x : α} (h : s.Working depth) : (pure x : Talk α).Ends s (Left depth) :=
  ends_pure h

theorem ends_left_throw {e : SolverError} (h : s.Working depth) :
    (throw e : Talk α).Ends s (Left depth) :=
  ends_throw (.working h)

theorem ends_checkSat (timeout : Option Nat) (hs : s.Working depth) :
    (checkSat timeout).Ends s (Left depth) := by
  refine ends_left_bind (ends_send_neutral (c := .checkSat) hs ⟨nofun, nofun⟩).left fun _ s hs ↦ ?_
  refine ends_left_bind (ends_receive hs).left fun response s hs ↦ ?_
  dsimp only
  split
  · exact ends_left_pure hs
  · exact ends_left_pure hs
  · split
    · exact ends_left_bind (ends_left_throw hs) fun x s hs ↦ ends_get_bind (ends_left_throw hs)
    · exact ends_get_bind (ends_left_throw hs)
  · exact ends_left_throw hs

theorem ends_getValues (terms : List Term) (hs : s.Working depth) :
    (getValues terms).Ends s (Left depth) := by
  unfold getValues
  split
  · exact ends_left_pure hs
  refine ends_left_bind (ends_send_neutral (c := .getValue terms) hs ⟨nofun, nofun⟩).left fun _ s hs ↦ ?_
  refine ends_left_bind (ends_receive hs).left fun response s hs ↦ ?_
  refine ends_left_bind (ends_ofExcept ?_) fun values s hs ↦ ?_
  · cases SExpr.parseValues response with
    | ok values => exact hs
    | error e => exact .working hs
  · dsimp only
    split
    · exact ends_left_pure hs
    · exact ends_left_bind (ends_left_throw hs) fun _ s hs ↦ ends_left_pure hs

theorem ends_contents (script : Script) (array : NamedArray) (hs : s.Working depth) :
    (contents script array).Ends s (Left depth) :=
  ends_left_bind (ends_getValues _ hs) fun _ _ hs ↦ ends_left_pure hs

theorem ends_mapM_contents (script : Script) (arrays : List NamedArray) (hs : s.Working depth) :
    (arrays.mapM (contents script)).Ends s (Left depth) := by
  induction arrays generalizing s with
  | nil => exact ends_left_pure hs
  | cons array rest ih =>
    rw [List.mapM_cons]
    refine ends_left_bind (ends_contents script array hs) fun bytes s hs ↦ ?_
    exact ends_left_bind (ih hs) fun _ s hs ↦ ends_left_pure hs

/-! ### Scopes -/

theorem ends_closeScope (hs : s.Working (depth + 1)) : closeScope.Ends s (Left depth) := by
  unfold closeScope
  exact (ends_send_working hs (fun _ _ h ↦ h.pop) (List.forall_mem_nil _)).left

theorem ends_closeScope_tidy (hs : s.Tidy (depth + 1)) (hdepth : depth ≤ 1) :
    closeScope.Ends s fun _ s' ↦ s'.Tidy depth := by
  cases hs with
  | working h =>
    refine (ends_closeScope h).mono fun r s' hr ↦ ?_
    cases r with
    | ok => exact .working hr
    | error e => exact hr
  | broken h =>
    obtain ⟨horderly, p, hp, hfailed, debt, hdebt, depth', hnests⟩ := h
    have hretired := horderly.retire hdebt hnests
    refine ends_send_to (ends_process_of_failed hp hfailed (ends_process_of_none rfl ?_ ?_))
    · intro _
      have howes := Session.owes_greeted s.binary s.replies
      refine ⟨?_, ?_⟩
      · intro _ p' replies sent hsent hfailed' hreceived
        obtain rfl := List.prefix_nil.1 hsent
        refine .replaced ⟨hretired, by simp, p', rfl, ?_, 1, by omega, ?_⟩
        · rw [hfailed', Session.failed_deliverAll]
        · rw [hreceived, List.append_nil]
          exact howes.pop
      · intro _ e
        refine .broken ⟨hretired, _, rfl, rfl, 0, Nat.zero_le _, 0, howes.nests⟩
    · intro havailable e
      exact .absent ⟨hretired, rfl, .inr havailable⟩
  | replaced h =>
    obtain ⟨horderly, hpast, p, hp, hfailed, debt, hdebt, howes⟩ := h
    refine ends_send_to (ends_process_of_usable hp hfailed ⟨?_, ?_⟩)
    · intro _ p' replies sent hsent hfailed' hreceived
      obtain rfl := List.prefix_nil.1 hsent
      refine .replaced ⟨horderly, hpast, p', rfl, hfailed'.trans hfailed, debt + 1, by omega, ?_⟩
      rw [hreceived, List.append_nil]
      exact howes.pop
    · intro _ e
      refine .broken ⟨horderly, _, rfl, rfl, debt, ?_, 0, howes.nests⟩
      rw [Session.maxDebt_of_ne_nil hpast]
      omega
  | absent h =>
    obtain ⟨horderly, hp, hcause⟩ := h
    have havailable : s.available = false := hcause.resolve_left (Nat.succ_ne_zero depth)
    refine ends_send_to (ends_process_of_none hp ?_ ?_)
    · intro htrue
      simp [havailable] at htrue
    · intro _ e
      exact .absent ⟨horderly, hp, .inr havailable⟩

theorem ends_checkAssuming (t : Term) (timeout : Option Nat) (hs : s.Working 1) :
    (checkAssuming t timeout).Ends s (Left 1) := by
  have hsend : (send [.push, .assert t]).Ends s (Sent 2) := by
    refine ends_send_working hs (fun _ _ h ↦ h.push) ?_
    simp [Command.Neutral]
  refine ends_bind hsend (fun _ s hs ↦ ?_) fun _ s hs ↦ .broken hs
  refine ends_attempt_bind (ends_checkSat timeout hs) fun result s h ↦ ?_
  cases result with
  | ok sat =>
    refine ends_left_bind (ends_closeScope h) fun _ s hs ↦ ?_
    exact ends_ofExcept (r := .ok sat) hs
  | error e =>
    refine ends_bind (ends_closeScope_tidy h (by decide)) (fun _ s hs ↦ ?_) fun _ s hs ↦ hs
    exact ends_ofExcept (r := .error e) hs

/-- A result leaves one scope open; after an error there is none to be closed. -/
def Opened (r : Except SolverError α) (s : Session) : Prop :=
  match r with
  | .ok _ => s.Working 1
  | .error _ => s.Tidy 0

theorem ends_open {rest : List Command} (hs : s.Tidy 0) (hrest : ∀ c ∈ rest, c.Neutral) :
    (send (.push :: rest)).Ends s Opened := by
  have hworking : ∀ s : Session, s.Working 0 → (send (.push :: rest)).Ends s Opened := by
    intro s hs
    refine (ends_send_working hs (fun _ _ h ↦ h.push) hrest).mono fun r s' hr ↦ ?_
    cases r with
    | ok => exact hr
    | error e => exact .broken hr
  -- A process that is started now gets its greeting and then the commands.
  have hstart : ∀ s : Session, s.Orderly → s.process = none → process.Ends s fun r s' ↦
      match r with
      | .ok p =>
        (p.alive = true → ∀ p' replies sent, sent <+: rest → p'.failed = p.failed →
          p'.received = p.received ++ [.push] ++ sent →
          Session.Working { s' with process := some p', replies := replies } 1) ∧
        (p.alive = false → ∀ _ : SolverError,
          Session.Tidy { s' with process := some { p with failed := true } } 0)
      | .error _ => s'.Tidy 0 := by
    intro s horderly hp
    have howes := Session.owes_greeted s.binary s.replies
    refine ends_process_of_none hp (fun _ ↦ ⟨?_, ?_⟩) fun _ _ ↦ .absent ⟨horderly, hp, .inl rfl⟩
    · intro _ p' replies sent hsent hfailed hreceived
      refine ⟨horderly, p', rfl, ?_, 0, Nat.zero_le _, ?_⟩
      · rw [hfailed, Session.failed_deliverAll]
      · rw [hreceived]
        exact howes.nests.push.append_neutral fun c hc ↦ hrest c (hsent.subset hc)
    · intro _ _
      exact .broken ⟨horderly, _, rfl, rfl, 0, Nat.zero_le _, 0, howes.nests⟩
  cases hs with
  | working h => exact hworking s h
  | replaced h => exact hworking s h.working
  | broken h =>
    obtain ⟨horderly, p, hp, hfailed, debt, hdebt, depth', hnests⟩ := h
    have hretired := horderly.retire hdebt hnests
    exact ends_send_to (ends_process_of_failed hp hfailed (hstart _ hretired rfl))
  | absent h => exact ends_send_to (hstart s h.1 h.2.1)

theorem ends_openScope (q : Query) (arrays : List NamedArray) (hs : s.Tidy 0) :
    (openScope q arrays).Ends s Opened := by
  have hscript : Build.Neutral (do
      let assertions ← q.constraints.toList.mapM Build.assertion
      let _ ← Build.term q.expr
      for array in arrays do
        let _ ← Build.root array
      return assertions) := by
    refine Build.neutral_bind (Build.neutral_mapM (fun e ↦ ?_) _) fun assertions ↦ ?_
    · exact Build.neutral_bind (Build.neutral_term e) fun _ ↦ Build.neutral_pure _
    · refine Build.neutral_bind (Build.neutral_term _) fun _ ↦ Build.neutral_bind ?_ fun _ ↦ Build.neutral_pure _
      refine Build.neutral_forIn (fun array _ ↦ ?_) _ _
      exact Build.neutral_bind (Build.neutral_root array) fun _ ↦ Build.neutral_pure _
  have hpreamble := hscript {} (by simp [Script.preamble])
  unfold openScope
  generalize StateT.run _ _ = built at hpreamble ⊢
  obtain ⟨assertions, script⟩ := built
  refine ends_get_bind ?_
  simp only [List.cons_append, List.nil_append]
  refine ends_bind (ends_open hs ?_) (fun _ s hs ↦ ends_pure hs) fun _ _ h ↦ h
  intro c hc
  rw [List.mem_append, List.mem_append, List.mem_map] at hc
  rcases hc with (hc | hc) | ⟨t, -, rfl⟩
  · split at hc
    · obtain rfl := List.mem_singleton.1 hc
      exact ⟨nofun, nofun⟩
    · simp at hc
  · exact hpreamble c hc
  · exact ⟨nofun, nofun⟩

theorem ends_inScope (q : Query) (arrays : List NamedArray) {work : Script → Talk α}
    (hs : s.Tidy 0) (hwork : ∀ script s, s.Working 1 → (work script).Ends s (Left 1)) :
    (inScope q arrays work).Ends s fun _ s' ↦ s'.Tidy 0 := by
  refine ends_bind (ends_openScope q arrays hs) (fun script s hs ↦ ?_) fun _ _ h ↦ h
  have htidy : (work script).Ends s fun _ s' ↦ s'.Tidy 1 := by
    refine (hwork script s hs).mono fun r s' h ↦ ?_
    cases r with
    | ok x => exact .working h
    | error e => exact h
  refine ends_attempt_bind htidy fun result s hs ↦ ?_
  refine ends_attempt_bind (ends_closeScope_tidy hs (by decide)) fun closed s hs ↦ ?_
  refine ends_bind (P := fun _ s' ↦ s'.Tidy 0) (ends_ofExcept hs) (fun x s hs ↦ ?_) fun _ _ h ↦ h
  exact ends_bind (P := fun _ s' ↦ s'.Tidy 0) (ends_ofExcept hs) (fun _ s hs ↦ ends_pure hs)
    fun _ _ h ↦ h

theorem ends_evaluate (q : Query) (hs : s.Tidy 0) :
    (evaluate q).Ends s fun _ s' ↦ s'.Tidy 0 := by
  refine ends_inScope q [] hs fun script s hs ↦ ?_
  refine ends_left_bind (ends_checkAssuming _ _ hs) fun sat s hs ↦ ?_
  cases sat with
  | false => exact ends_left_pure hs
  | true =>
    refine ends_left_bind (ends_checkAssuming _ _ hs) fun sat s hs ↦ ?_
    cases sat with
    | false => exact ends_left_pure hs
    | true => exact ends_left_pure hs

theorem ends_firstValue (term : Term) (hs : s.Working 1) : (do
    match ← getValues [term] with
    | v :: _ => return v
    | [] => throw .unsatisfiable : Talk Nat).Ends s (Left 1) := by
  refine ends_left_bind (ends_getValues _ hs) fun values s hs ↦ ?_
  cases values with
  | nil => exact ends_left_throw hs
  | cons v _ => exact ends_left_pure hs

theorem ends_value (q : Query) (hs : s.Tidy 0) : (value q).Ends s fun _ s' ↦ s'.Tidy 0 := by
  refine ends_inScope q [] hs fun script s hs ↦ ?_
  refine ends_left_bind (ends_checkSat _ hs) fun sat s hs ↦ ?_
  cases sat with
  | false => exact ends_left_bind (ends_left_throw hs) fun _ s hs ↦ ends_firstValue _ hs
  | true => exact ends_firstValue _ hs

theorem ends_initialValues (q : Query) (arrays : List NamedArray) (hs : s.Tidy 0) :
    (initialValues q arrays).Ends s fun _ s' ↦ s'.Tidy 0 := by
  refine ends_inScope q arrays hs fun script s hs ↦ ?_
  refine ends_left_bind (ends_send_neutral (c := .assert _) hs ⟨nofun, nofun⟩).left fun _ s hs ↦ ?_
  refine ends_left_bind (ends_checkSat _ hs) fun sat s hs ↦ ?_
  cases sat with
  | false => exact ends_left_pure hs
  | true => exact ends_left_bind (ends_mapM_contents script arrays hs) fun _ s hs ↦ ends_left_pure hs

end Talk

/-! ## Questions -/

/-- What a dialogue can be asked. -/
inductive Question where
  | evaluate (q : Query)
  | value (q : Query)
  | initialValues (q : Query) (arrays : List NamedArray)

namespace Session

/-- The dialogue after a question, whether it was answered or not. -/
def ask (s : Session) : Question → Session
  | .evaluate q => ((Talk.evaluate q).run.run s).2
  | .value q => ((Talk.value q).run.run s).2
  | .initialValues q arrays => ((Talk.initialValues q arrays).run.run s).2

/-- What each process was told, in the order of their starts. -/
def streams (s : Session) : List (List Command) := s.past ++ s.process.toList.map (·.received)

theorem Tidy.ask {s : Session} (hs : s.Tidy 0) (question : Question) : (s.ask question).Tidy 0 := by
  cases question with
  | evaluate q => exact (Talk.ends_evaluate q hs).result
  | value q => exact (Talk.ends_value q hs).result
  | initialValues q arrays => exact (Talk.ends_initialValues q arrays hs).result

theorem tidy_foldl_ask (questions : List Question) {s : Session} (hs : s.Tidy 0) :
    (questions.foldl ask s).Tidy 0 := by
  induction questions generalizing s with
  | nil => exact hs
  | cons question rest ih => exact ih (hs.ask question)

theorem Tidy.exists_nests_received {s : Session} {depth : Nat} (hs : s.Tidy depth) {p : Process}
    (hp : s.process = some p) :
    ∃ debt ≤ maxDebt s.past.length, ∃ depth', Nests s.binary debt depth' p.received := by
  cases hs with
  | working h =>
    obtain ⟨-, p', hp', -, debt, hdebt, hnests⟩ := h
    obtain rfl : p' = p := by simpa [hp] using hp'.symm
    exact ⟨debt, hdebt, depth, hnests⟩
  | broken h =>
    obtain ⟨-, p', hp', -, debt, hdebt, depth', hnests⟩ := h
    obtain rfl : p' = p := by simpa [hp] using hp'.symm
    exact ⟨debt, hdebt, depth', hnests⟩
  | replaced h =>
    obtain ⟨-, hpast, p', hp', -, debt, hdebt, howes⟩ := h
    obtain rfl : p' = p := by simpa [hp] using hp'.symm
    refine ⟨debt, ?_, 0, howes.nests⟩
    rw [maxDebt_of_ne_nil hpast]
    omega
  | absent h => simp [h.2.1] at hp

theorem Tidy.working_of_usable {s : Session} (hs : s.Tidy 0) {p : Process} (hp : s.process = some p)
    (hfailed : p.failed = false) : s.Working 0 := by
  cases hs with
  | working h => exact h
  | broken h =>
    obtain ⟨-, p', hp', hfailed', -⟩ := h
    obtain rfl : p' = p := by simpa [hp] using hp'.symm
    simp [hfailed] at hfailed'
  | replaced h => exact h.working
  | absent h => simp [h.2.1] at hp

theorem Tidy.orderly {s : Session} {depth : Nat} (hs : s.Tidy depth) : s.Orderly := by
  cases hs with
  | working h => exact h.1
  | broken h => exact h.1
  | replaced h => exact h.1
  | absent h => exact h.1

theorem Tidy.exists_nests {s : Session} {depth : Nat} (hs : s.Tidy depth) {i : Nat}
    {commands : List Command} (hi : s.streams[i]? = some commands) :
    ∃ debt ≤ maxDebt i, ∃ depth', Nests s.binary debt depth' commands := by
  rw [streams, List.getElem?_append] at hi
  split at hi
  · exact hs.orderly i commands hi
  · rename_i hge
    cases hp : s.process with
    | none => simp [hp] at hi
    | some p =>
      obtain ⟨hlt, rfl⟩ := List.getElem?_eq_some_iff.1 hi
      have hi' : i = s.past.length := by
        simp [hp] at hlt
        omega
      subst hi'
      simpa [hp] using hs.exists_nests_received hp

/-- Whatever the processes reply to whatever questions: the first of them never closes a scope that is
not open, any other may be told at its start, and then only, to close up to two; and when the next
question comes, all scopes of the process in use are closed. -/
theorem scopes_nest (binary : Binary) (available : Bool) (replies : List Reply)
    (questions : List Question) :
    let s := questions.foldl ask { binary, available, replies }
    (∀ i commands, s.streams[i]? = some commands →
      ∃ debt ≤ maxDebt i, ∃ depth, Nests s.binary debt depth commands) ∧
    ∀ p, s.process = some p → p.failed = false →
      ∃ debt ≤ maxDebt s.past.length, Nests s.binary debt 0 p.received := by
  have hfresh : Tidy { binary, available, replies } 0 := by
    refine .absent ⟨?_, rfl, .inl rfl⟩
    intro i commands hi
    simp at hi
  have htidy := tidy_foldl_ask questions hfresh
  refine ⟨fun i commands hi ↦ htidy.exists_nests hi, ?_⟩
  intro p hp hfailed
  obtain ⟨-, p', hp', -, debt, hdebt, hnests⟩ := htidy.working_of_usable hp hfailed
  obtain rfl : p' = p := by simpa [hp] using hp'.symm
  exact ⟨debt, hdebt, hnests⟩

/-- After an error the next process is told to close two scopes that it never opened. -/
theorem error_leaves_unopened_scopes :
    (ask { binary := .z3, replies := [⟨"(error \"bad\")", false⟩] }
      (.evaluate ⟨{}, .const 1 1, none⟩)).streams[1]? = some (Binary.z3.greeting ++ [.pop, .pop]) := by
  decide +kernel

end Session

end Symex.Smt
