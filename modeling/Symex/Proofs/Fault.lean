import Symex.Fault

namespace Symex

variable {α β : Type}

namespace Checked

@[simp] theorem bind_eq_ok {x : Checked α} {f : α → Checked β} {b : β} :
    x >>= f = .ok b ↔ ∃ a, x = .ok a ∧ f a = .ok b := by
  cases x with
  | error e => simp [bind, Except.bind]
  | ok a => simp [bind, Except.bind]

@[simp] theorem pure_eq_ok {a b : α} : (pure a : Checked α) = .ok b ↔ a = b := by
  simp [pure, Except.pure]

@[simp] theorem ok_bind (a : α) (f : α → Checked β) : Except.ok a >>= f = f a := rfl

@[simp] theorem map_eq_ok {x : Checked α} {f : α → β} {b : β} :
    f <$> x = .ok b ↔ ∃ a, x = .ok a ∧ f a = b := by
  cases x with
  | error e => simp [Functor.map, Except.map]
  | ok a => simp [Functor.map, Except.map]

end Checked

@[simp] theorem demand_eq_ok {p : Prop} [Decidable p] {fault : Fault} {u : Unit} :
    demand p fault = .ok u ↔ p := by
  unfold demand
  split <;> simp_all

theorem demand_of {p : Prop} [Decidable p] {fault : Fault} (h : p) : demand p fault = .ok () :=
  demand_eq_ok.2 h

end Symex
