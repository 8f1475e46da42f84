import Symex.Program.Validation

namespace Symex

namespace Program

variable {p : Program} {l : Location} {i : Instruction} {f : Function} {b : Block} {id : FunctionId}

theorem of_ite_eq_none {α : Type} {c : Prop} [Decidable c] {problem : α}
    (h : (if c then none else some problem) = none) : c :=
  Decidable.byContradiction fun hc ↦ nomatch (if_neg hc).symm.trans h

theorem instruction?_eq_some : p.instruction? l = some i ↔ ∃ f b,
    p.functions[l.function]? = some f ∧ f.blocks[l.block]? = some b ∧ b[l.index]? = some i := by
  simp [instruction?, Option.bind_eq_some_iff]

theorem isValid_iff : p.isValid = true ↔ p.entryProblem = none ∧
    (∀ c ∈ p.constants, p.constantProblem c = none) ∧
    ∀ f id, p.functions[id]? = some f → p.functionProblems id f = [] := by
  have hsort : ∀ {α : Type} (l : List (Location × α)), sortByLocation l = [] ↔ l = [] := by
    intro α l
    rw [← List.length_eq_zero_iff, ← List.length_eq_zero_iff, sortByLocation, List.length_mergeSort]
  rw [isValid, List.isEmpty_iff, problems, hsort]
  simp [List.mem_zipIdx_iff_getElem?]

theorem exists_entry (hp : p.isValid) : ∃ f, p.functions[p.entry]? = some f ∧ f.isExternal = false := by
  have h := (isValid_iff.1 hp).1
  unfold entryProblem function? at h
  split at h
  · cases h
  · rename_i f hf
    split at h
    · cases h
    · rename_i hdefined
      exact ⟨f, hf, by simpa using hdefined⟩

theorem functionProblems_eq_nil (hp : p.isValid) (hf : p.functions[id]? = some f)
    (hdefined : f.isExternal = false) : f.blocks.isEmpty = false ∧ f.parameters ≤ f.registers ∧
      ∀ b k, f.blocks[k]? = some b → p.blockProblems id f k b = [] := by
  have h := (isValid_iff.1 hp).2.2 f id hf
  unfold functionProblems at h
  unfold Function.blocks
  unfold Function.isExternal at hdefined
  split at h
  · simp_all
  · rename_i blocks hbody
    simp only [hbody, List.append_eq_nil_iff, List.flatMap_eq_nil_iff] at h ⊢
    obtain ⟨⟨hne, hregisters⟩, hblocks⟩ := h
    refine ⟨?_, ?_, fun b k hb ↦ hblocks (b, k) ?_⟩
    · simpa using hne
    · simpa using hregisters
    · rw [List.mem_zipIdx_iff_getElem?]
      simpa using hb

theorem parameters_le (hp : p.isValid) (hf : p.functions[id]? = some f) (hdefined : f.isExternal = false) :
    f.parameters ≤ f.registers :=
  (functionProblems_eq_nil hp hf hdefined).2.1

theorem isExternal_of_block {k : BlockId} (hb : f.blocks[k]? = some b) : f.isExternal = false := by
  unfold Function.blocks at hb
  unfold Function.isExternal
  split
  · simp_all
  · rfl

theorem blockProblems_eq_nil {k : BlockId} (hp : p.isValid) (hf : p.functions[id]? = some f)
    (hb : f.blocks[k]? = some b) : b.size ≠ 0 ∧ ∀ i n, b[n]? = some i →
      (i.isTerminator = true → n + 1 = b.size) ∧ (n + 1 = b.size → i.isTerminator = true) ∧
        p.instructionProblem f.registers f.blocks.size i = none := by
  have h := (functionProblems_eq_nil hp hf (isExternal_of_block hb)).2.2 b k hb
  simp only [blockProblems, List.append_eq_nil_iff, List.flatMap_eq_nil_iff] at h
  obtain ⟨hending, hall⟩ := h
  have hback : b.back?.any (·.isTerminator) = true := by simpa using hending
  have hne : b.size ≠ 0 := by
    intro hzero
    rw [Array.eq_empty_of_size_eq_zero hzero] at hback
    cases hback
  refine ⟨hne, fun i n hi ↦ ?_⟩
  have hmem : (i, n) ∈ b.toList.zipIdx := by
    rw [List.mem_zipIdx_iff_getElem?]
    simpa using hi
  obtain ⟨hlast, hproblem⟩ := hall (i, n) hmem
  refine ⟨fun hterm ↦ ?_, fun hn ↦ ?_, by simpa using hproblem⟩
  · have hlast : ¬(n ≠ b.size - 1 ∧ i.isTerminator = true) := fun hc ↦ nomatch (if_pos hc).symm.trans hlast
    have hn : n = b.size - 1 := Decidable.byContradiction fun hn ↦ hlast ⟨hn, hterm⟩
    omega
  · rw [Array.back?, ← hn, Nat.add_sub_cancel, hi] at hback
    exact hback

theorem isSome_instruction?_block {k : BlockId} (hp : p.isValid) (hf : p.functions[id]? = some f)
    (hk : k < f.blocks.size) : (p.instruction? ⟨id, k, 0⟩).isSome := by
  have hb := Array.getElem?_eq_getElem hk
  have hne := (blockProblems_eq_nil hp hf hb).1
  rw [Option.isSome_iff_exists]
  exact ⟨_, instruction?_eq_some.2 ⟨f, f.blocks[k], hf, hb, Array.getElem?_eq_getElem (Nat.pos_of_ne_zero hne)⟩⟩

theorem isSome_instruction?_entry (hp : p.isValid) (hf : p.functions[id]? = some f)
    (hdefined : f.isExternal = false) : (p.instruction? (.entry id)).isSome := by
  refine isSome_instruction?_block hp hf (Nat.pos_of_ne_zero fun hzero ↦ ?_)
  have hne := (functionProblems_eq_nil hp hf hdefined).1
  rw [Array.eq_empty_of_size_eq_zero hzero] at hne
  cases hne

theorem isSome_instruction?_next (hp : p.isValid) (hi : p.instruction? l = some i)
    (hterm : i.isTerminator = false) : (p.instruction? l.next).isSome := by
  obtain ⟨f, b, hf, hb, hi⟩ := instruction?_eq_some.1 hi
  obtain ⟨-, hlast, -⟩ := (blockProblems_eq_nil hp hf hb).2 i l.index hi
  obtain ⟨hlt, -⟩ := Array.getElem?_eq_some_iff.1 hi
  have hlt : l.index + 1 < b.size := by
    refine Nat.lt_of_le_of_ne hlt fun heq ↦ ?_
    rw [hlast heq] at hterm
    cases hterm
  rw [Option.isSome_iff_exists]
  exact ⟨_, instruction?_eq_some.2 ⟨f, b, hf, hb, Array.getElem?_eq_getElem hlt⟩⟩

/-- What an instruction names is there. -/
structure Names (p : Program) (f : Function) (i : Instruction) : Prop where
  operands : ∀ o ∈ i.operands, p.operandProblem f.registers o = none
  destination : ∀ d, i.destination? = some d → d < f.registers
  successors : ∀ k ∈ i.successors, k < f.blocks.size
  kind : p.kindProblem f.blocks.size i = none

theorem exists_names (hp : p.isValid) (hi : p.instruction? l = some i) :
    ∃ f, p.functions[l.function]? = some f ∧ p.Names f i := by
  obtain ⟨f, b, hf, hb, hi⟩ := instruction?_eq_some.1 hi
  obtain ⟨-, -, hproblem⟩ := (blockProblems_eq_nil hp hf hb).2 i l.index hi
  simp only [instructionProblem, Option.or_eq_none_iff, List.findSome?_eq_none_iff] at hproblem
  obtain ⟨hoperands, hdestination, hsuccessors, hkind⟩ := hproblem
  refine ⟨f, hf, hoperands, fun d hd ↦ ?_, fun k hk ↦ ?_, hkind⟩
  · rw [hd] at hdestination
    exact of_ite_eq_none hdestination
  · simp only [Option.map_eq_none_iff, List.find?_eq_none, decide_eq_true_eq] at hsuccessors
    exact Nat.lt_of_not_le (hsuccessors k hk)

theorem constant_lt {c : ConstantId} (h : p.operandProblem f.registers (.constant c) = none) :
    c < p.constants.size :=
  of_ite_eq_none h

theorem callee_lt {g : FunctionId} {arguments : List Operand} {d : Option Register}
    (h : p.kindProblem f.blocks.size (.call (.function g) arguments d) = none) : g < p.functions.size :=
  of_ite_eq_none h

theorem global_lt {g : GlobalId} {offset : Nat} (hp : p.isValid) (h : .globalAddress g offset ∈ p.constants) :
    g < p.globals.size :=
  of_ite_eq_none ((isValid_iff.1 hp).2.1 _ h)

end Program

end Symex
