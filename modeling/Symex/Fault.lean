namespace Symex

/-- Why an operation was abandoned: a promise its caller made does not hold. A fault is a bug of
the caller, never a property of the program being explored. -/
inductive Fault where
  /-- Widths of operands do not fit, or lie outside 1 to 64 bits. -/
  | width
  /-- Machine arithmetic left its range. -/
  | overflow
  /-- An index lies past the end of a buffer. -/
  | range
  /-- A part of the program or of a state that has to exist does not: a function, an instruction, a
  constant, a thread, a frame or a register. -/
  | missing
  /-- An object of memory is bound twice, or used although it is not bound. -/
  | unbound
  /-- A constraint contradicts the constraints before it. -/
  | infeasible
  /-- A state is stepped that is not live. -/
  | ended
  /-- A call broke one of the structural rules of the data it was made on. -/
  | misuse
  /-- A bounded computation was cut off. -/
  | exhausted
deriving DecidableEq, Repr

/-- Computations that may be abandoned. -/
abbrev Checked := Except Fault

@[inline] def demand (p : Prop) [Decidable p] (fault : Fault) : Checked Unit :=
  if p then .ok () else .error fault

@[inline] def Checked.ofOption {α : Type} (o : Option α) : Checked α :=
  match o with
  | some a => .ok a
  | none => .error .missing

end Symex
