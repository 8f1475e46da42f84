import Symex.Seed
import Mathlib.Data.List.Perm.Basic
import Mathlib.Data.List.Sublists

namespace Symex

namespace Seed

variable {name : String} {inputs rest : List TestInput} {input : TestInput}

theorem takeInput_eq_none : takeInput name inputs = none ↔ inputs = [] := by
  cases inputs with
  | nil => simp [takeInput]
  | cons first rest =>
    simp only [takeInput]
    split
    · simp
    · split <;> simp

/-- Either the first input is taken, as it is called `name` or no input is, or the one that is found behind
it, to whose place the first one moves. -/
theorem takeInput_cons (name : String) (first : TestInput) (others : List TestInput) :
    (takeInput name (first :: others) = some (first, others) ∧
      ∀ i ∈ (first :: others).findIdx? (·.name == name), i = 0) ∨
    ∃ (i : Nat) (h : i < others.length),
      takeInput name (first :: others) = some (others[i], others.set i first) ∧
      (first :: others).findIdx? (·.name == name) = some (i + 1) := by
  by_cases hfirst : first.name = name
  · exact .inl ⟨by simp [takeInput, hfirst], by simp [List.findIdx?_cons, hfirst]⟩
  cases hi : others.findIdx? (·.name == name) with
  | none => exact .inl ⟨by simp [takeInput, hi], by simp [List.findIdx?_cons, hfirst, hi]⟩
  | some i =>
    have h := (List.findIdx?_eq_some_iff_getElem.mp hi).1
    exact .inr ⟨i, h, by simp [takeInput, hfirst, hi, h], by simp [List.findIdx?_cons, hfirst, hi]⟩

theorem takeInput_fst (name : String) (inputs : List TestInput) :
    (takeInput name inputs).map (·.1) = (inputs.find? (·.name == name)).or inputs.head? := by
  cases inputs with
  | nil => rfl
  | cons first others =>
    obtain ⟨htake, hfound⟩ | ⟨i, h, htake, hfound⟩ := takeInput_cons name first others
    · cases hfirst : first.name == name with
      | true => simp [htake, hfirst]
      | false =>
        have hindex : others.findIdx? (·.name == name) = none := by
          simpa [List.findIdx?_cons, hfirst, Option.eq_none_iff_forall_not_mem] using hfound
        have hnone : others.find? (·.name == name) = none := by
          simpa [List.findIdx?_eq_none_iff] using hindex
        simp [htake, hfirst, hnone]
    · obtain ⟨_, hname, hbefore⟩ := List.findIdx?_eq_some_iff_getElem.mp hfound
      have hfind : (first :: others).find? (·.name == name) = some others[i] :=
        List.find?_eq_some_iff_getElem.mpr
          ⟨hname, i + 1, by simpa using h, rfl, fun j hj ↦ by simpa using hbefore j hj⟩
      simp [htake, hfind]

theorem perm_of_takeInput (h : takeInput name inputs = some (input, rest)) : (input :: rest).Perm inputs := by
  cases inputs with
  | nil => simp [takeInput] at h
  | cons first others =>
    obtain ⟨htake, -⟩ | ⟨i, hlt, htake, -⟩ := takeInput_cons name first others
    · obtain ⟨rfl, rfl⟩ : first = input ∧ others = rest := by simpa [htake] using h
      exact .refl _
    · obtain ⟨rfl, rfl⟩ : others[i] = input ∧ others.set i first = rest := by simpa [htake] using h
      calc (others[i] :: others.set i first).Perm (others[i] :: first :: others.eraseIdx i) :=
            (List.set_perm_cons_eraseIdx hlt first).cons _
        List.Perm _ (first :: others[i] :: others.eraseIdx i) := .swap ..
        List.Perm _ (first :: others) := (List.getElem_cons_eraseIdx_perm hlt).cons _

/-- The input of the name is one of the first two, if there is one. -/
def Near (name : String) (inputs : List TestInput) : Prop :=
  ∀ i ∈ inputs.findIdx? (·.name == name), i ≤ 1

theorem sublist_of_takeInput (hnear : Near name inputs) (h : takeInput name inputs = some (input, rest)) :
    rest.Sublist inputs := by
  cases inputs with
  | nil => simp [takeInput] at h
  | cons first others =>
    obtain ⟨htake, -⟩ | ⟨i, hlt, htake, hfound⟩ := takeInput_cons name first others
    · obtain ⟨rfl, rfl⟩ : first = input ∧ others = rest := by simpa [htake] using h
      exact List.sublist_cons_self ..
    · obtain ⟨rfl, rfl⟩ : others[i] = input ∧ others.set i first = rest := by simpa [htake] using h
      obtain rfl : i = 0 := by
        have := hnear (i + 1) hfound
        omega
      obtain ⟨second, others, rfl⟩ := List.exists_cons_of_length_pos hlt
      exact (List.sublist_cons_self second others).cons_cons first

/-- What is taken from further behind brings different inputs out of order: the first one comes to stand
behind the second. -/
theorem near_of_sublist (hdistinct : inputs.Nodup) (h : takeInput name inputs = some (input, rest))
    (hsub : rest.Sublist inputs) : Near name inputs := by
  intro k hk
  cases inputs with
  | nil => simp at hk
  | cons first others =>
    obtain ⟨-, hfound⟩ | ⟨i, hlt, htake, hfound⟩ := takeInput_cons name first others
    · exact (hfound k hk).trans_le (Nat.zero_le _)
    obtain ⟨-, rfl⟩ : others[i] = input ∧ others.set i first = rest := by simpa [htake] using h
    obtain rfl : i + 1 = k := by simpa [hfound] using hk
    cases i with
    | zero => exact le_rfl
    | succ i =>
      obtain ⟨second, others, rfl⟩ := List.exists_cons_of_length_pos (Nat.zero_lt_of_lt hlt)
      have hne : second ≠ first := fun heq ↦ by simp [heq] at hdistinct
      have hmem : first ∈ others.set i first := List.mem_set (by simpa using hlt) _
      have hrest : (second :: others.set i first).Sublist (second :: others) := by
        simpa [hne] using (List.cons_sublist_cons'.mp hsub).resolve_right fun h ↦ hne h.1
      have := (List.cons_sublist_cons.mp hrest).subset hmem
      simp_all

/-- A request of a seed from which inputs were taken already. -/
def request (taken : List TestInput × Seed) (name : String) : List TestInput × Seed :=
  match taken.2.nextInput name with
  | none => taken
  | some (input, s) => (taken.1 ++ [input], s)

/-- The inputs that are taken by requests one after another, and the seed that is left. -/
def serve (inputs : List TestInput) (names : List String) : List TestInput × Seed :=
  names.foldl request ([], { unused := inputs })

def waiting (inputs : List TestInput) (names : List String) : List TestInput :=
  (serve inputs names).2.unused

theorem serve_concat (inputs : List TestInput) (names : List String) (name : String) :
    serve inputs (names ++ [name]) = request (serve inputs names) name := by
  simp [serve]

theorem request_cases (taken : List TestInput × Seed) (name : String) :
    (taken.2.unused = [] ∧ taken.2.nextInput name = none ∧ request taken name = taken) ∨
    ∃ input rest, takeInput name taken.2.unused = some (input, rest) ∧
      request taken name = (taken.1 ++ [input], { taken.2 with unused := rest }) := by
  cases h : takeInput name taken.2.unused with
  | none =>
    have hnext : taken.2.nextInput name = none := by simp [nextInput, h]
    exact .inl ⟨takeInput_eq_none.mp h, hnext, by simp [request, hnext]⟩
  | some found => exact .inr ⟨found.1, found.2, rfl, by simp [request, nextInput, h]⟩

theorem perm_serve (inputs : List TestInput) (names : List String) :
    ((serve inputs names).1 ++ waiting inputs names).Perm inputs := by
  unfold waiting
  induction names using List.reverseRecOn with
  | nil => exact .refl _
  | append_singleton names name ih =>
    rw [serve_concat]
    obtain ⟨-, -, h⟩ | ⟨input, rest, htake, h⟩ := request_cases (serve inputs names) name
    · rwa [h]
    · rw [h, List.append_assoc]
      exact ((perm_of_takeInput htake).append_left _).trans ih

theorem length_serve (inputs : List TestInput) (names : List String) :
    (serve inputs names).1.length = min names.length inputs.length := by
  induction names using List.reverseRecOn with
  | nil => simp [serve]
  | append_singleton names name ih =>
    have hall := (perm_serve inputs names).length_eq
    rw [List.length_append] at hall
    rw [serve_concat, List.length_append, List.length_singleton]
    obtain ⟨hempty, -, h⟩ | ⟨input, rest, htake, h⟩ := request_cases (serve inputs names) name
    · rw [waiting, hempty, List.length_nil] at hall
      rw [h]
      omega
    · have hwait := (perm_of_takeInput htake).length_eq
      rw [List.length_cons] at hwait
      rw [waiting] at hall
      rw [h, List.length_append, List.length_singleton]
      omega

theorem sublist_waiting (inputs : List TestInput) (names : List String)
    (hnear : ∀ before name, before ++ [name] <+: names → Near name (waiting inputs before)) :
    (waiting inputs names).Sublist inputs := by
  induction names using List.reverseRecOn with
  | nil => exact .refl _
  | append_singleton names name ih =>
    have hbefore := ih fun before name h ↦ hnear before name (h.trans (List.prefix_append ..))
    rw [waiting, serve_concat]
    obtain ⟨-, -, h⟩ | ⟨input, rest, htake, h⟩ := request_cases (serve inputs names) name
    · rwa [h]
    · rw [h]
      exact (sublist_of_takeInput (hnear names name (List.prefix_refl _)) htake).trans hbefore

/-- After any requests, the inputs that were taken and those that wait are the inputs of the seed, so none is
taken twice. The next request is answered unless all are used up, with the first input of the name among
those that wait, or else with the first of all. Those that wait are in the order of the seed as long as each
input was taken from the first two, but no longer: the request that takes a different one brings them out of
order. -/
theorem requests_served (inputs : List TestInput) (names : List String) (name : String) :
    ((serve inputs names).1 ++ waiting inputs names).Perm inputs ∧
    ((serve inputs names).2.nextInput name).map (·.1) =
      ((waiting inputs names).find? (·.name == name)).or (waiting inputs names).head? ∧
    (((serve inputs names).2.nextInput name).isNone ↔ inputs.length ≤ names.length) ∧
    ((∀ before next, before ++ [next] <+: names → Near next (waiting inputs before)) →
      (waiting inputs names).Sublist inputs) ∧
    (inputs.Nodup → (waiting inputs (names ++ [name])).Sublist (waiting inputs names) →
      Near name (waiting inputs names)) := by
  refine ⟨perm_serve inputs names, ?_, ?_, sublist_waiting inputs names, ?_⟩
  · rw [← takeInput_fst, nextInput, Option.map_map]
    rfl
  · have hall := (perm_serve inputs names).length_eq
    have htaken := length_serve inputs names
    have hnone : ((serve inputs names).2.nextInput name).isNone ↔ (waiting inputs names).length = 0 := by
      rw [List.length_eq_zero_iff, ← takeInput_eq_none, nextInput, Option.isNone_map, Option.isNone_iff_eq_none]
      rfl
    rw [List.length_append] at hall
    rw [hnone]
    omega
  · intro hdistinct hsub
    obtain ⟨hempty, -, -⟩ | ⟨input, rest, htake, h⟩ := request_cases (serve inputs names) name
    · simp [Near, waiting, hempty]
    rw [waiting, serve_concat, h] at hsub
    refine near_of_sublist ?_ htake hsub
    exact ((perm_serve inputs names).nodup_iff.mpr hdistinct).of_append_right

-- The first input waits behind the second one once the third is taken.
example : ((serve (["a", "b", "c"].map (⟨·, .empty⟩)) ["c", "z", "z"]).1.map (·.name)) = ["c", "b", "a"] := by
  decide

end Seed

end Symex
