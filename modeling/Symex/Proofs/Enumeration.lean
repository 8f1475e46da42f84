import Symex.Proofs.Attempts
import Symex.Proofs.Constraints

namespace Symex

/-- All arrays that the constraints and the expression of a question read. -/
def Query.arrays (q : Query) : List NamedArray :=
  (Expr.reads (q.constraints.toList ++ [q.expr])).toList.map (·.1)

/-- An assignment of the inputs of a question under which all its constraints hold. -/
def Query.Solution (q : Query) (a : Assignment) : Prop :=
  a.Fits q.arrays ∧ a.satisfies? q.constraints.toList = some true

theorem Query.mem_arrays {q : Query} {A : NamedArray} :
    A ∈ q.arrays ↔ ∃ i, ∃ e ∈ q.constraints.toList ++ [q.expr], e.HasRead (A, i) := by
  simp only [Query.arrays, List.mem_map, Array.mem_toList_iff, Expr.mem_reads]
  grind

namespace Enumeration

open Assignment

def termsOf (q : Query) (arrays : List NamedArray) : List Expr :=
  relevant q.constraints.toList q.expr arrays ++ [q.expr]

/-- The assignments that a search about `q` tries. -/
def attempts (q : Query) (arrays : List NamedArray) : List Assignment :=
  let xs := extents (termsOf q arrays)
  combinations (positionsOf xs) (Nat.pow 256 (positionsOf xs).length) (startOf xs)

variable {q : Query} {arrays : List NamedArray} {a b : Assignment}

theorem mem_of_mem_termsOf {e : Expr} (he : e ∈ termsOf q arrays) :
    e ∈ q.constraints.toList ++ [q.expr] := by
  obtain ⟨N, hN⟩ := exists_relevant q.constraints.toList q.expr arrays
  rw [termsOf, List.mem_append] at he
  rw [List.mem_append]
  exact he.imp_left (hN.subset e)

theorem spans_termsOf (hn : NamesApart q.arrays) (arrays : List NamedArray) :
    Spans (termsOf q arrays) (extents (termsOf q arrays)) := by
  refine spans_extents (hn.mono fun A hA ↦ ?_)
  simp only [List.mem_map, Array.mem_toList_iff, Expr.mem_reads] at hA
  obtain ⟨⟨A, i⟩, ⟨e, he, hread⟩, rfl⟩ := hA
  exact Query.mem_arrays.2 ⟨i, e, mem_of_mem_termsOf he, hread⟩

theorem reaches_termsOf {as : List NamedArray} (hn : NamesApart (q.arrays ++ as))
    (hsub : ∀ A ∈ q.arrays, A.isSymbolic → A ∈ as) : Reaches (termsOf q arrays) as := by
  have hmem : ∀ e ∈ termsOf q arrays, ∀ A i, e.HasRead (A, i) → A ∈ q.arrays :=
    fun e he A i hread ↦ Query.mem_arrays.2 ⟨i, e, mem_of_mem_termsOf he, hread⟩
  refine ⟨fun e he A i hread hs ↦ hsub A (hmem e he A i hread) hs, fun e he A i hread ↦ ?_⟩
  refine hn.mono (List.forall_mem_cons.2 ⟨?_, fun B hB ↦ ?_⟩)
  · exact List.mem_append_left _ (hmem e he A i hread)
  · exact List.mem_append_right _ hB

theorem reaches_arrays (hn : NamesApart q.arrays) (arrays : List NamedArray) :
    Reaches (termsOf q arrays) q.arrays :=
  reaches_termsOf (hn.mono (by simp)) fun _ hA _ ↦ hA

theorem name_ne_of_apart (hn : NamesApart q.arrays) {N : String → Prop}
    (hN : Relevant q.constraints.toList q.expr arrays
      (relevant q.constraints.toList q.expr arrays) N)
    {c : Expr} (hc : c ∈ q.constraints.toList)
    (hapart : ∀ A i, c.HasRead (A, i) → A.isSymbolic → ¬N A.name) {A : NamedArray} {i : Expr}
    (hread : c.HasRead (A, i)) : ∀ x ∈ extents (termsOf q arrays), x.array.name ≠ A.name := by
  intro x hx hname
  obtain ⟨hsx, j, e, he, hxe⟩ := (spans_termsOf hn arrays).source x hx
  by_cases hs : A.isSymbolic
  · exact hapart A i hread hs (hname ▸ hN.used e he _ j hxe hsx)
  · have hxq := Query.mem_arrays.2 ⟨j, e, mem_of_mem_termsOf he, hxe⟩
    have hAq := Query.mem_arrays.2 ⟨i, c, List.mem_append_left [q.expr] hc, hread⟩
    have hxA := hn x.array hxq A hAq hsx hname
    exact hs (hxA ▸ hsx)

/-- What an expression can be under one of the assignments that are tried and satisfy the relevant
constraints, it can be in a solution. -/
theorem exists_solution_of_attempt (hn : NamesApart q.arrays) (ha : q.Solution a)
    (hb : b ∈ attempts q arrays)
    (hsat : b.satisfies? (relevant q.constraints.toList q.expr arrays) = some true) :
    ∃ c, q.Solution c ∧ c.eval q.expr = b.eval q.expr := by
  have hr := reaches_arrays hn arrays
  have hx := spans_termsOf hn arrays
  have hmoved := moved_of_mem_combinations hx.nodup_positionsOf hx.bound_startOf hb
  have heval := eval_overlay hr hx ha.1 hmoved
  refine ⟨overlay (extents (termsOf q arrays)) a b, ⟨fits_overlay hr hn hx ha.1 hmoved, ?_⟩,
    heval q.expr (by simp [termsOf])⟩
  obtain ⟨N, hN⟩ := exists_relevant q.constraints.toList q.expr arrays
  have hall := satisfies?_eq_true.1 ha.2
  rw [satisfies?_eq_true] at hsat ⊢
  intro c hc
  obtain hk | hk := hN.split c hc
  · rw [Holds, heval c (List.mem_append_left _ hk)]
    exact hsat c hk
  · rw [Holds, eval_overlay_of_apart fun A i hread ↦ name_ne_of_apart hn hN hc hk hread]
    exact hall c hc

theorem exists_attempt (arrays : List NamedArray) {as : List NamedArray} (hn : NamesApart (q.arrays ++ as))
    (hsub : ∀ A ∈ q.arrays, A.isSymbolic → A ∈ as) (ha : a.Fits as)
    (hsat : a.HoldsAll (relevant q.constraints.toList q.expr arrays)) :
    ∃ b ∈ attempts q arrays,
      b.satisfies? (relevant q.constraints.toList q.expr arrays) = some true ∧
        b.eval q.expr = a.eval q.expr := by
  have hx := spans_termsOf (q := q) (hn.mono fun A hA ↦ by simp [hA]) arrays
  obtain ⟨b, hb, heval⟩ := exists_combination (reaches_termsOf hn hsub) hx ha
  refine ⟨b, hb, ?_, heval q.expr (by simp [termsOf])⟩
  rw [satisfies?_eq_true]
  intro c hc
  rw [Holds, heval c (List.mem_append_left _ hc)]
  exact hsat c hc

/-! ## The outcome of a search -/

/-- What `visit` gathers from assignments that satisfy `constraints`, and where it ends. -/
def survey {β : Type} (constraints : List Expr) (visit : Assignment → β → β × Bool) :
    List Assignment → β → β × Option Assignment
  | [], gathered => (gathered, none)
  | a :: rest, gathered =>
    if a.satisfies? constraints == some true then
      if (visit a gathered).2 then ((visit a gathered).1, some a)
      else survey constraints visit rest (visit a gathered).1
    else survey constraints visit rest gathered

theorem explore_eq_survey {β : Type} (constraints : List Expr) (ps : List (String × Nat))
    (visit : Assignment → β → β × Bool) (fuel : Nat) (a : Assignment) (gathered : β) (n : Nat) :
    ((explore constraints ps visit fuel a gathered n).1,
        (explore constraints ps visit fuel a gathered n).2.1) =
      survey constraints visit (combinations ps fuel a) gathered := by
  induction fuel generalizing a gathered n with
  | zero => rfl
  | succ fuel ih =>
    rw [explore, combinations, survey]
    by_cases hsat : a.satisfies? constraints == some true
    · simp only [hsat, if_true]
      by_cases hdone : (visit a gathered).2
      · simp only [hdone, if_true]
      · simp only [hdone]
        cases hadv : advance a ps with
        | none => rfl
        | some a' => exact ih a' _ _
    · simp only [hsat]
      cases hadv : advance a ps with
      | none => rfl
      | some a' => exact ih a' _ _

theorem search_eq_survey {β : Type} {s : Enumeration} {visit : Assignment → β → β × Bool}
    {gathered : β} {r : β × Option Assignment} (ht : q.timeout = none)
    (h : (s.search q arrays visit gathered).1 = .ok r) :
    survey (relevant q.constraints.toList q.expr arrays) visit (attempts q arrays) gathered = r := by
  unfold search at h
  dsimp only at h
  split at h
  · cases h
  · rw [if_neg (by simp [ht])] at h
    rw [attempts, ← explore_eq_survey _ _ _ _ _ _ s.tried]
    exact Except.ok.inj h

theorem survey_eq_find? (kept : List Expr) (stop : Assignment → Bool) (as : List Assignment) :
    (survey kept (fun a _ ↦ ((), stop a)) as ()).2 =
      as.find? fun a ↦ a.satisfies? kept == some true && stop a := by
  induction as with
  | nil => rfl
  | cons a as ih =>
    rw [survey, List.find?_cons]
    by_cases hsat : a.satisfies? kept == some true
    · by_cases hstop : stop a
      · simp [hsat, hstop]
      · simpa [hsat, hstop] using ih
    · simpa [hsat] using ih

theorem Seen.note_failing (seen : Seen) (v : Option Nat) :
    (seen.note v).failing ↔ seen.failing ∨ v = some 0 := by
  match v with
  | none => simp [note]
  | some 0 => simp [note]
  | some (n + 1) => simp [note]

theorem Seen.note_holding (seen : Seen) (v : Option Nat) :
    (seen.note v).holding ↔ seen.holding ∨ v.isSome ∧ v ≠ some 0 := by
  match v with
  | none => simp [note]
  | some 0 => simp [note]
  | some (n + 1) => simp [note]

theorem Seen.validity_eq_always (seen : Seen) : seen.validity = .always ↔ ¬seen.failing := by
  unfold validity
  cases seen.failing <;> cases seen.holding <;> simp

theorem Seen.validity_eq_never (seen : Seen) :
    seen.validity = .never ↔ seen.failing ∧ ¬seen.holding := by
  unfold validity
  cases seen.failing <;> cases seen.holding <;> simp

theorem Seen.validity_eq_sometimes (seen : Seen) :
    seen.validity = .sometimes ↔ seen.failing ∧ seen.holding := by
  unfold validity
  cases seen.failing <;> cases seen.holding <;> simp

theorem survey_seen (kept : List Expr) (as : List Assignment) (e : Expr) (seen : Seen) :
    let visit := fun (a : Assignment) (seen : Seen) ↦
      (seen.note (a.value? e), (seen.note (a.value? e)).holding && (seen.note (a.value? e)).failing)
    ((survey kept visit as seen).1.failing ↔ seen.failing ∨
      ∃ a ∈ as, a.satisfies? kept = some true ∧ a.value? e = some 0) ∧
    ((survey kept visit as seen).1.holding ↔ seen.holding ∨
      ∃ a ∈ as, a.satisfies? kept = some true ∧ (a.value? e).isSome ∧ a.value? e ≠ some 0) := by
  intro visit
  induction as generalizing seen with
  | nil => simp [survey]
  | cons a as ih =>
    have hf := seen.note_failing (a.value? e)
    have hh := seen.note_holding (a.value? e)
    rw [survey]
    by_cases hsat : a.satisfies? kept = some true
    · rw [if_pos (by simp [hsat])]
      by_cases hdone : (visit a seen).2
      · rw [if_pos hdone]
        have hboth : (seen.note (a.value? e)).holding ∧ (seen.note (a.value? e)).failing := by
          simpa [visit] using hdone
        grind
      · rw [if_neg hdone]
        have := ih (visit a seen).1
        grind
    · rw [if_neg (by simp [hsat])]
      have := ih seen
      grind

/-! ## The answers -/

theorem map_eq_ok {ε α β : Type} {x : Except ε α} {f : α → β} {b : β} :
    x.map f = .ok b ↔ ∃ a, x = .ok a ∧ f a = b := by
  cases x with
  | error e => simp [Except.map]
  | ok a => simp [Except.map]

/-- The values of the expression in solutions are its values under the attempts that satisfy the
relevant constraints. -/
theorem exists_solution_iff (hn : NamesApart q.arrays) (ha : q.Solution a) (p : Option Nat → Prop) :
    (∃ c, q.Solution c ∧ p (c.value? q.expr)) ↔
      ∃ b ∈ attempts q [],
        b.satisfies? (relevant q.constraints.toList q.expr []) = some true ∧ p (b.value? q.expr) := by
  simp only [value?_eq_eval]
  constructor
  · rintro ⟨c, hc, hp⟩
    obtain ⟨N, hN⟩ := exists_relevant q.constraints.toList q.expr []
    have hall := satisfies?_eq_true.1 hc.2
    obtain ⟨b, hb, hsat, heq⟩ := exists_attempt [] (hn.mono (by simp)) (fun _ h _ ↦ h)
      hc.1 fun d hd ↦ hall d (hN.subset d hd)
    exact ⟨b, hb, hsat, heq ▸ hp⟩
  · rintro ⟨b, hb, hsat, hp⟩
    obtain ⟨c, hc, heq⟩ := exists_solution_of_attempt hn ha hb hsat
    exact ⟨c, hc, heq ▸ hp⟩

theorem evaluate_exact {s : Enumeration} {v : Validity} (hn : NamesApart q.arrays)
    (ht : q.timeout = none) (ha : q.Solution a) (hv : (evaluate q s).1 = .ok v) :
    (v = .always ↔ ∀ c, q.Solution c → c.value? q.expr ≠ some 0) ∧
      (v = .never ↔ ∀ c, q.Solution c → c.value? q.expr = some 0) ∧
      (v = .sometimes ↔ (∃ c, q.Solution c ∧ c.value? q.expr = some 0) ∧
        ∃ c, q.Solution c ∧ c.value? q.expr ≠ some 0) := by
  have hknown : ∀ c, q.Solution c → (c.value? q.expr).isSome := by
    intro c hc
    obtain ⟨n, hn⟩ := exists_eval hc.1.free q.expr
    rw [value?_eq_eval, hn]
    rfl
  obtain ⟨r, hr, rfl⟩ := map_eq_ok.1 hv
  have hsurvey := search_eq_survey ht hr
  obtain ⟨hf, hh⟩ := survey_seen (relevant q.constraints.toList q.expr [])
    (attempts q []) q.expr {}
  have hfail := exists_solution_iff hn ha (· = some 0)
  have hhold := exists_solution_iff hn ha fun v ↦ v.isSome ∧ v ≠ some 0
  rw [hsurvey] at hf hh
  simp only [Bool.false_eq_true, false_or] at hf hh
  rw [← hfail] at hf
  rw [← hhold] at hh
  have hh' : r.1.holding ↔ ∃ c, q.Solution c ∧ c.value? q.expr ≠ some 0 := by
    rw [hh]
    exact exists_congr fun c ↦ and_congr_right fun hc ↦ and_iff_right (hknown c hc)
  refine ⟨?_, ?_, ?_⟩
  · rw [Seen.validity_eq_always, hf]
    simp
  · rw [Seen.validity_eq_never, hf, hh']
    constructor
    · rintro ⟨-, hall⟩ c hc
      by_contra h0
      exact hall ⟨c, hc, h0⟩
    · intro hall
      exact ⟨⟨a, ha, hall a ha⟩, fun ⟨c, hc, h0⟩ ↦ h0 (hall c hc)⟩
  · rw [Seen.validity_eq_sometimes, hf, hh']

theorem value_exact {s : Enumeration} {n : Nat} (hn : NamesApart q.arrays)
    (ht : q.timeout = none) (ha : q.Solution a) (hv : (value q s).1 = .ok n) :
    ∃ c, q.Solution c ∧ c.value? q.expr = some n := by
  unfold value at hv
  dsimp only at hv
  cases hr : (s.search q [] (fun _ _ ↦ ((), true)) ()).1 with
  | error e =>
    rw [hr] at hv
    cases hv
  | ok r =>
    rw [hr] at hv
    have hfound := survey_eq_find? (relevant q.constraints.toList q.expr [])
      (fun _ ↦ true) (attempts q [])
    rw [search_eq_survey ht hr] at hfound
    obtain ⟨b, hb, hval⟩ : ∃ b, r.2 = some b ∧ b.value? q.expr = some n := by
      cases hbind : r.2.bind (·.value? q.expr) with
      | none =>
        simp only [Bind.bind, Except.bind, hbind] at hv
        cases hv
      | some v =>
        simp only [Bind.bind, Except.bind, hbind] at hv
        obtain rfl := Except.ok.inj hv
        exact Option.bind_eq_some_iff.1 hbind
    rw [hfound] at hb
    have hmem := List.mem_of_find?_eq_some hb
    have hsat := List.find?_some hb
    exact (exists_solution_iff hn ha (· = some n)).2 ⟨b, hmem, by simpa using hsat, hval⟩

end Enumeration

namespace Assignment

variable {a b : Assignment}

def ofValues (arrays : List NamedArray) (values : List ByteArray) : Assignment :=
  (arrays.zip values).foldl (fun a p ↦ a.bind p.1.name p.2) { free := true }

/-- Whatever bytes the assignment gives to `name` are zero. -/
def Blank (a : Assignment) (name : String) : Prop :=
  ∀ n b, a.byteAt name n = some b → b = 0

theorem blank_of_get?_eq_none {name : String} (h : a.get? name = none) : a.Blank name := by
  intro n b hb
  simp [byteAt, h] at hb

theorem Blank.byte?_eq {A : NamedArray} (h : a.Blank A.name) (ha : a.free) (n : Nat) :
    a.byte? A n = some ((A.byte? n).getD 0) := by
  have hb := h n
  unfold byteAt at hb
  unfold byte?
  cases A.byte? n with
  | some x => rfl
  | none =>
    cases hx : (a.get? A.name).bind (·[n]?) with
    | none => simp [ha]
    | some x => simp [hb x hx]

theorem eval_congr_inputs (ha : a.free) (hb : b.free) {e : Expr}
    (hs : ∀ A i, e.HasRead (A, i) → A.isSymbolic → a.get? A.name = b.get? A.name)
    (hc : ∀ A i, e.HasRead (A, i) → ¬A.isSymbolic → a.Blank A.name ∧ b.Blank A.name) :
    a.eval e = b.eval e := by
  refine eval_congr fun ⟨A, i⟩ hread n _ ↦ ?_
  by_cases hsym : A.isSymbolic
  · refine byte?_congr (ha.trans hb.symm) ?_
    rw [byteAt, byteAt, hs A i hread hsym]
  · obtain ⟨hba, hbb⟩ := hc A i hread hsym
    rw [hba.byte?_eq ha, hbb.byte?_eq hb]

theorem ofValues_map (arrays : List NamedArray) (f : NamedArray → ByteArray) (name : String) :
    (∃ A ∈ arrays, A.name = name ∧ (ofValues arrays (arrays.map f)).get? name = some (f A)) ∨
      (∀ A ∈ arrays, A.name ≠ name) ∧ (ofValues arrays (arrays.map f)).get? name = none := by
  have hfold : ∀ (as : List NamedArray) (a : Assignment),
      (∃ A ∈ as, A.name = name ∧
        ((as.zip (as.map f)).foldl (fun a p ↦ a.bind p.1.name p.2) a).get? name = some (f A)) ∨
      (∀ A ∈ as, A.name ≠ name) ∧
        ((as.zip (as.map f)).foldl (fun a p ↦ a.bind p.1.name p.2) a).get? name = a.get? name := by
    intro as
    induction as with
    | nil => simp
    | cons A as ih =>
      intro a
      rw [List.map_cons, List.zip_cons_cons, List.foldl_cons]
      obtain ⟨B, hB, hname, hget⟩ | ⟨hne, hget⟩ := ih (a.bind A.name (f A))
      · exact .inl ⟨B, by simp [hB], hname, hget⟩
      · rw [get?_bind] at hget
        by_cases hA : A.name = name
        · exact .inl ⟨A, by simp, hA, by rw [hget, if_pos hA]⟩
        · exact .inr ⟨List.forall_mem_cons.2 ⟨hA, hne⟩, by rw [hget, if_neg hA]⟩
  exact hfold arrays { free := true }

theorem free_ofValues (arrays : List NamedArray) (values : List ByteArray) :
    (ofValues arrays values).free := by
  have hfold : ∀ (ps : List (NamedArray × ByteArray)) (a : Assignment),
      (ps.foldl (fun a p ↦ a.bind p.1.name p.2) a).free = a.free := by
    intro ps
    induction ps with
    | nil => exact fun _ ↦ rfl
    | cons p ps ih => exact fun a ↦ ih (a.bind p.1.name p.2)
  exact hfold _ _

end Assignment

namespace Enumeration

open Assignment

variable {q : Query} {arrays : List NamedArray} {a b : Assignment}

def contents (b : Assignment) (A : NamedArray) : ByteArray :=
  (b.get? A.name).getD (Bytes.zeros A.size)

theorem moved_of_attempt (hn : NamesApart q.arrays) (hb : b ∈ attempts q arrays) :
    Moved (positionsOf (extents (termsOf q arrays))) (startOf (extents (termsOf q arrays))) b :=
  have hx := spans_termsOf hn arrays
  moved_of_mem_combinations hx.nodup_positionsOf hx.bound_startOf hb

theorem mem_arrays_of_extent (hn : NamesApart q.arrays) {x : Extent}
    (hx : x ∈ extents (termsOf q arrays)) : x.array ∈ q.arrays ∧ x.array.isSymbolic := by
  obtain ⟨hs, i, e, he, hread⟩ := (spans_termsOf hn arrays).source x hx
  exact ⟨Query.mem_arrays.2 ⟨i, e, mem_of_mem_termsOf he, hread⟩, hs⟩

theorem size_contents (hn : NamesApart (q.arrays ++ arrays)) (hb : b ∈ attempts q arrays)
    {A : NamedArray} (hA : A ∈ arrays) : (contents b A).size = A.size := by
  have hq : NamesApart q.arrays := hn.mono fun B hB ↦ by simp [hB]
  by_cases hname : ∃ x ∈ extents (termsOf q arrays), x.array.name = A.name
  · obtain ⟨x, hx, hxA⟩ := hname
    obtain ⟨hmem, hs⟩ := mem_arrays_of_extent hq hx
    obtain rfl := hn x.array (by simp [hmem]) A (by simp [hA]) hs hxA
    obtain ⟨bytes, hget, hsize⟩ := (spans_termsOf hq arrays).exists_get?_moved (moved_of_attempt hq hb) hx
    rw [contents, hget]
    exact hsize
  · have hnone := get?_moved_eq_none (moved_of_attempt hq hb) (by simpa using hname)
    rw [contents, hnone]
    exact Bytes.size_zeros _

theorem get?_attempt_eq_none (hn : NamesApart q.arrays) (hb : b ∈ attempts q arrays)
    {A : NamedArray} (hA : A ∈ q.arrays) (hs : ¬A.isSymbolic) : b.get? A.name = none := by
  refine get?_moved_eq_none (moved_of_attempt hn hb) fun x hx hname ↦ ?_
  obtain ⟨hmem, hsx⟩ := mem_arrays_of_extent hn hx
  have hxA := hn x.array hmem A hA hsx hname
  exact hs (hxA ▸ hsx)

theorem blank_ofValues (hn : NamesApart q.arrays) (hb : b ∈ attempts q arrays)
    {A : NamedArray} (hA : A ∈ q.arrays) (hs : ¬A.isSymbolic) :
    (ofValues arrays (arrays.map (contents b))).Blank A.name := by
  have hnone := get?_attempt_eq_none hn hb hA hs
  obtain ⟨B, -, hname, hget⟩ | ⟨-, hget⟩ := ofValues_map arrays (contents b) A.name
  · intro n x hx
    rw [byteAt, hget, contents, hname, hnone] at hx
    exact Bytes.getElem?_zeros hx
  · exact blank_of_get?_eq_none hget

theorem eval_ofValues (hn : NamesApart (q.arrays ++ arrays))
    (hsub : ∀ A ∈ q.arrays, A.isSymbolic → A ∈ arrays) (hb : b ∈ attempts q arrays) {e : Expr}
    (he : e ∈ termsOf q arrays) : (ofValues arrays (arrays.map (contents b))).eval e = b.eval e := by
  have hq : NamesApart q.arrays := hn.mono fun B hB ↦ by simp [hB]
  have hmem : ∀ A i, e.HasRead (A, i) → A ∈ q.arrays :=
    fun A i hread ↦ Query.mem_arrays.2 ⟨i, e, mem_of_mem_termsOf he, hread⟩
  have hmoved := moved_of_attempt hq hb
  have hfree : b.free := by rw [hmoved.free_eq, startOf, free_foldl_bind]
  refine eval_congr_inputs (free_ofValues _ _) hfree (fun A i hread hs ↦ ?_) fun A i hread hs ↦ ?_
  · obtain ⟨x, hx, rfl, -⟩ := (reaches_arrays hq arrays).exists_extent (spans_termsOf hq arrays) he hread hs
    obtain ⟨bytes, hget, -⟩ := (spans_termsOf hq arrays).exists_get?_moved hmoved hx
    obtain ⟨B, -, hname, hval⟩ | ⟨hne, -⟩ := ofValues_map arrays (contents b) x.array.name
    · rw [hval, contents, hname, hget]
      rfl
    · exact (hne x.array (hsub _ (hmem _ i hread) hs) rfl).elim
  · exact ⟨blank_ofValues hq hb (hmem A i hread) hs,
      blank_of_get?_eq_none (get?_attempt_eq_none hq hb (hmem A i hread) hs)⟩

theorem eval_ofValues_of_closed (hn : NamesApart q.arrays) (ha : a.Fits q.arrays)
    (hb : b ∈ attempts q arrays) {c : Expr} (hc : c ∈ q.constraints.toList)
    (hclosed : ∀ A i, c.HasRead (A, i) → ¬A.isSymbolic) :
    (ofValues arrays (arrays.map (contents b))).eval c = a.eval c := by
  have hmem : ∀ A i, c.HasRead (A, i) → A ∈ q.arrays :=
    fun A i hread ↦ Query.mem_arrays.2 ⟨i, c, List.mem_append_left [q.expr] hc, hread⟩
  refine eval_congr_inputs (free_ofValues _ _) ha.free
    (fun A i hread hs ↦ (hclosed A i hread hs).elim) fun A i hread hs ↦ ?_
  have hA := hmem A i hread
  have hapart : NamesApart (A :: q.arrays) := hn.mono (List.forall_mem_cons.2 ⟨hA, fun _ ↦ id⟩)
  exact ⟨blank_ofValues hn hb hA hs, blank_of_get?_eq_none (ha.get?_eq_none hapart hs)⟩

theorem initialValues_exact {s : Enumeration} {r : Option (List ByteArray)}
    (hn : NamesApart (q.arrays ++ arrays)) (hsub : ∀ A ∈ q.arrays, A.isSymbolic → A ∈ arrays)
    (ht : q.timeout = none) (ha : q.Solution a) (hr : (initialValues q arrays s).1 = .ok r) :
    (∀ values, r = some values → values.map (·.size) = arrays.map (·.size) ∧
      (ofValues arrays values).satisfies? q.constraints.toList = some true ∧
      (ofValues arrays values).value? q.expr = some 0) ∧
    (r = none → ∀ c : Assignment, c.Fits arrays →
      (∀ d ∈ q.constraints.toList, Expr.arrays [d] ≠ #[] → c.value? d ≠ some 0) →
      c.value? q.expr ≠ some 0) := by
  have hq : NamesApart q.arrays := hn.mono fun B hB ↦ by simp [hB]
  obtain ⟨N, hN⟩ := exists_relevant q.constraints.toList q.expr arrays
  have hmap : (s.search q arrays (fun a _ ↦ ((), a.value? q.expr == some 0)) ()).1.map
      (fun p ↦ p.2.map fun b ↦ arrays.map (contents b)) = .ok r := hr
  obtain ⟨found, hsearch, rfl⟩ := map_eq_ok.1 hmap
  have hfound := survey_eq_find? (relevant q.constraints.toList q.expr arrays)
    (fun a ↦ a.value? q.expr == some 0) (attempts q arrays)
  rw [search_eq_survey ht hsearch] at hfound
  refine ⟨fun values hvalues ↦ ?_, fun hnone c hc hholds h0 ↦ ?_⟩
  · obtain ⟨b, hb, rfl⟩ := Option.map_eq_some_iff.1 hvalues
    rw [hfound] at hb
    have hmem := List.mem_of_find?_eq_some hb
    obtain ⟨hsat, hzero⟩ : b.satisfies? (relevant q.constraints.toList q.expr arrays) = some true ∧
        b.value? q.expr = some 0 := by
      simpa using List.find?_some hb
    have heval := fun e he ↦ eval_ofValues hn hsub hmem (e := e) he
    refine ⟨?_, ?_, ?_⟩
    · rw [List.map_map]
      exact List.map_congr_left fun A hA ↦ size_contents hn hmem hA
    · have hall := satisfies?_eq_true.1 ha.2
      rw [satisfies?_eq_true] at hsat ⊢
      intro d hd
      obtain hk | hk := hN.split d hd
      · rw [Holds, heval d (List.mem_append_left _ hk)]
        exact hsat d hk
      · have hclosed : ∀ A i, d.HasRead (A, i) → ¬A.isSymbolic := by
          intro A i hread hs
          have hA := Query.mem_arrays.2 ⟨i, d, List.mem_append_left [q.expr] hd, hread⟩
          exact hk A i hread hs (hN.arrays A (hsub A hA hs))
        rw [Holds, eval_ofValues_of_closed hq ha.1 hmem hd hclosed]
        exact hall d hd
    · rw [value?_eq_eval, heval q.expr (by simp [termsOf]), ← value?_eq_eval, hzero]
  · have hkept : c.HoldsAll (relevant q.constraints.toList q.expr arrays) := by
      intro d hd
      obtain ⟨n, hn⟩ := exists_eval hc.free d
      have hne := hholds d (hN.subset d hd) (hN.input d hd)
      rw [value?_eq_eval, hn] at hne
      exact ⟨n, hn, fun h ↦ hne (h ▸ rfl)⟩
    obtain ⟨b, hb, hsat, heq⟩ := exists_attempt arrays hn hsub hc hkept
    rw [value?_eq_eval, ← heq, ← value?_eq_eval] at h0
    have hsome : (found.2).isSome := by
      rw [hfound, List.find?_isSome]
      exact ⟨b, hb, by simp [hsat, h0]⟩
    rw [Option.map_eq_none_iff] at hnone
    simp [hnone] at hsome

/-- Where no time limit is set, the answers about satisfiable constraints are exact: an expression is
judged by its values in all solutions, a value is one it has in a solution, and contents of the
inputs are found whenever there is a solution in which it is zero. -/
theorem exact (q : Query) (s : Enumeration) (hn : NamesApart q.arrays) (ht : q.timeout = none)
    (hsat : ∃ a, q.Solution a) :
    (∀ v, (evaluate q s).1 = .ok v →
      (v = .always ↔ ∀ a, q.Solution a → a.value? q.expr ≠ some 0) ∧
      (v = .never ↔ ∀ a, q.Solution a → a.value? q.expr = some 0) ∧
      (v = .sometimes ↔ (∃ a, q.Solution a ∧ a.value? q.expr = some 0) ∧
        ∃ a, q.Solution a ∧ a.value? q.expr ≠ some 0)) ∧
    (∀ n, (value q s).1 = .ok n → ∃ a, q.Solution a ∧ a.value? q.expr = some n) ∧
    (∀ (arrays : List NamedArray) (r : Option (List ByteArray)),
      NamesApart (q.arrays ++ arrays) → (∀ A ∈ q.arrays, A.isSymbolic → A ∈ arrays) →
      (initialValues q arrays s).1 = .ok r →
      (∀ values, r = some values → values.map (·.size) = arrays.map (·.size) ∧
        (ofValues arrays values).satisfies? q.constraints.toList = some true ∧
        (ofValues arrays values).value? q.expr = some 0) ∧
      (r = none → ∀ a : Assignment, a.Fits arrays →
        (∀ c ∈ q.constraints.toList, Expr.arrays [c] ≠ #[] → a.value? c ≠ some 0) →
        a.value? q.expr ≠ some 0)) := by
  obtain ⟨a, ha⟩ := hsat
  exact ⟨fun _ hv ↦ evaluate_exact hn ht ha hv, fun _ hv ↦ value_exact hn ht ha hv,
    fun _ _ hna hsub hr ↦ initialValues_exact hna hsub ht ha hr⟩

def byteQuestion : Query where
  constraints.all := #[.compare .ult (.read (.base (.symbolic "x" 1)) (.const 0 32)) (.const 100 8)]
  expr := .compare .eq (.const 5 8) (.read (.base (.symbolic "x" 1)) (.const 0 32))

theorem mem_arrays_byteQuestion {A : NamedArray} (h : A ∈ byteQuestion.arrays) :
    A = .symbolic "x" 1 := by
  obtain ⟨i, e, he, hread⟩ := Query.mem_arrays.1 h
  have hcases : e = .compare .ult (.read (.base (.symbolic "x" 1)) (.const 0 32)) (.const 100 8) ∨
      e = .compare .eq (.const 5 8) (.read (.base (.symbolic "x" 1)) (.const 0 32)) := by
    simpa [byteQuestion, ConstraintSet.toList] using he
  obtain rfl | rfl := hcases
  · have hA : A = .symbolic "x" 1 ∧ i = .const 0 32 := by
      simpa [Expr.HasRead, Updates.HasRead, Updates.root] using hread
    exact hA.1
  · have hA : A = .symbolic "x" 1 ∧ i = .const 0 32 := by
      simpa [Expr.HasRead, Updates.HasRead, Updates.root] using hread
    exact hA.1

theorem solution_byteQuestion : byteQuestion.Solution ((Assignment.mk true {}).bind "x" ⟨#[7]⟩) := by
  refine ⟨⟨rfl, fun A hA _ ↦ ?_, fun {name bytes} hget ↦ ?_⟩, rfl⟩
  · rw [mem_arrays_byteQuestion hA]
    exact ⟨⟨#[7]⟩, rfl, rfl⟩
  · rw [get?_bind] at hget
    split at hget
    · rename_i hname
      refine ⟨.symbolic "x" 1, Query.mem_arrays.2 ⟨.const 0 32, byteQuestion.expr, by simp, ?_⟩, rfl,
        hname⟩
      simp [byteQuestion, Expr.HasRead, Updates.HasRead, Updates.root]
    · cases hget

theorem exact_byteQuestion :
    byteQuestion.timeout = none ∧ (∃ a, byteQuestion.Solution a) ∧
      ∀ v, (evaluate byteQuestion {}).1 = .ok v →
        (v = .sometimes ↔
          (∃ a, byteQuestion.Solution a ∧ a.value? byteQuestion.expr = some 0) ∧
            ∃ a, byteQuestion.Solution a ∧ a.value? byteQuestion.expr ≠ some 0) := by
  refine ⟨rfl, ⟨_, solution_byteQuestion⟩, fun v hv ↦ ?_⟩
  have hn : NamesApart byteQuestion.arrays := fun A hA B hB _ _ ↦
    (mem_arrays_byteQuestion hA).trans (mem_arrays_byteQuestion hB).symm
  exact ((exact byteQuestion {} hn rfl ⟨_, solution_byteQuestion⟩).1 v hv).2.2

end Enumeration

end Symex
