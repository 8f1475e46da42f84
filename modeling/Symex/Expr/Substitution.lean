import Symex.Expr.Build
import Std.Data.DHashMap
import Std.Data.HashMap

namespace Symex

/-- A way to rebuild expressions: `before` answers for a whole term, `after` adjusts a term whose
parts are done. -/
structure Rebuilding where
  before : Expr → Option Expr
  after : Expr → Expr

namespace Rebuilding

mutual

/-- The rebuilt form of `e`. A term whose parts do not change stays as it is. -/
def apply (w : Rebuilding) (e : Expr) : Checked Expr :=
  match w.before e with
  | some r => .ok r
  | none =>
    match e with
    | .const _ _ => .ok e
    | .read u i => do
      let i' ← w.apply i
      let u' ← w.applyUpdates u
      return w.after (← if i' = i ∧ u' = u then pure e else Expr.mkRead u' i')
    | .select c t f => do
      let c' ← w.apply c
      let t' ← w.apply t
      let f' ← w.apply f
      return w.after (← if c' = c ∧ t' = t ∧ f' = f then pure e else Expr.mkSelect c' t' f')
    | .concat m l => do
      let m' ← w.apply m
      let l' ← w.apply l
      return w.after (← if m' = m ∧ l' = l then pure e else Expr.mkConcat m' l')
    | .extract x offset width => do
      let x' ← w.apply x
      return w.after (← if x' = x then pure e else Expr.mkExtract x' offset width)
    | .zext x width => do
      let x' ← w.apply x
      return w.after (← if x' = x then pure e else Expr.mkZext x' width)
    | .sext x width => do
      let x' ← w.apply x
      return w.after (← if x' = x then pure e else Expr.mkSext x' width)
    | .not x => do
      let x' ← w.apply x
      return w.after (if x' = x then e else Expr.mkNot x')
    | .binary op l r => do
      let l' ← w.apply l
      let r' ← w.apply r
      return w.after (← if l' = l ∧ r' = r then pure e else Expr.mkBinary op l' r')
    | .compare op l r => do
      let l' ← w.apply l
      let r' ← w.apply r
      return w.after (← if l' = l ∧ r' = r then pure e else Expr.mkCompare op l' r')

def applyUpdates (w : Rebuilding) (u : Updates) : Checked Updates :=
  match u with
  | .base _ => .ok u
  | .write i x older => do
    let i' ← w.apply i
    let x' ← w.apply x
    let older' ← w.applyUpdates older
    older'.extend i' x'

end

/-- Results of a rebuilding that are already known. -/
abbrev Table (w : Rebuilding) := Std.DHashMap Expr fun e ↦ { r : Checked Expr // r = w.apply e }

mutual

def applyM (w : Rebuilding) (e : Expr) (t : Table w) : { r : Checked Expr // r = w.apply e } × Table w :=
  match t.get? e with
  | some known => (known, t)
  | none =>
    let (r, t) : { r : Checked Expr // r = w.apply e } × Table w :=
      match h : w.before e with
      | some r => (⟨.ok r, by unfold apply; rw [h]⟩, t)
      | none =>
        match e with
        | .const v width => (⟨.ok (.const v width), by unfold apply; rw [h]⟩, t)
        | .read u i =>
          let (i', t) := w.applyM i t
          let (u', t) := w.applyUpdatesM u t
          (⟨do
              let i' ← i'.1
              let u' ← u'.1
              return w.after (← if i' = i ∧ u' = u then pure (.read u i) else Expr.mkRead u' i'),
            by conv => rhs; unfold apply
               rw [h, i'.2, u'.2]⟩, t)
        | .select c x f =>
          let (c', t) := w.applyM c t
          let (x', t) := w.applyM x t
          let (f', t) := w.applyM f t
          (⟨do
              let c' ← c'.1
              let x' ← x'.1
              let f' ← f'.1
              return w.after (← if c' = c ∧ x' = x ∧ f' = f then pure (.select c x f)
                else Expr.mkSelect c' x' f'),
            by conv => rhs; unfold apply
               rw [h, c'.2, x'.2, f'.2]⟩, t)
        | .concat m l =>
          let (m', t) := w.applyM m t
          let (l', t) := w.applyM l t
          (⟨do
              let m' ← m'.1
              let l' ← l'.1
              return w.after (← if m' = m ∧ l' = l then pure (.concat m l) else Expr.mkConcat m' l'),
            by conv => rhs; unfold apply
               rw [h, m'.2, l'.2]⟩, t)
        | .extract x offset width =>
          let (x', t) := w.applyM x t
          (⟨do
              let x' ← x'.1
              return w.after (← if x' = x then pure (.extract x offset width)
                else Expr.mkExtract x' offset width),
            by conv => rhs; unfold apply
               rw [h, x'.2]⟩, t)
        | .zext x width =>
          let (x', t) := w.applyM x t
          (⟨do
              let x' ← x'.1
              return w.after (← if x' = x then pure (.zext x width) else Expr.mkZext x' width),
            by conv => rhs; unfold apply
               rw [h, x'.2]⟩, t)
        | .sext x width =>
          let (x', t) := w.applyM x t
          (⟨do
              let x' ← x'.1
              return w.after (← if x' = x then pure (.sext x width) else Expr.mkSext x' width),
            by conv => rhs; unfold apply
               rw [h, x'.2]⟩, t)
        | .not x =>
          let (x', t) := w.applyM x t
          (⟨do
              let x' ← x'.1
              return w.after (if x' = x then .not x else Expr.mkNot x'),
            by conv => rhs; unfold apply
               rw [h, x'.2]⟩, t)
        | .binary op l r =>
          let (l', t) := w.applyM l t
          let (r', t) := w.applyM r t
          (⟨do
              let l' ← l'.1
              let r' ← r'.1
              return w.after (← if l' = l ∧ r' = r then pure (.binary op l r)
                else Expr.mkBinary op l' r'),
            by conv => rhs; unfold apply
               rw [h, l'.2, r'.2]⟩, t)
        | .compare op l r =>
          let (l', t) := w.applyM l t
          let (r', t) := w.applyM r t
          (⟨do
              let l' ← l'.1
              let r' ← r'.1
              return w.after (← if l' = l ∧ r' = r then pure (.compare op l r)
                else Expr.mkCompare op l' r'),
            by conv => rhs; unfold apply
               rw [h, l'.2, r'.2]⟩, t)
    (r, t.insert e r)

/-- Computes `applyUpdates` with the help of a table. -/
def applyUpdatesM (w : Rebuilding) (u : Updates) (t : Table w) :
    { r : Checked Updates // r = w.applyUpdates u } × Table w :=
  match u with
  | .base a => (⟨.ok (.base a), by unfold applyUpdates; rfl⟩, t)
  | .write i x older =>
    let (i', t) := w.applyM i t
    let (x', t) := w.applyM x t
    let (older', t) := w.applyUpdatesM older t
    (⟨do
        let i' ← i'.1
        let x' ← x'.1
        let older' ← older'.1
        older'.extend i' x',
      by conv => rhs; unfold applyUpdates
         rw [i'.2, x'.2, older'.2]⟩, t)

end

/-- The rebuilt form of `e`, with each shared node rebuilt once. -/
def run (w : Rebuilding) (e : Expr) : Checked Expr := (w.applyM e {}).1

theorem run_eq_apply (w : Rebuilding) (e : Expr) : w.run e = w.apply e := (w.applyM e {}).1.2

end Rebuilding

/-- Replacements of terms by terms. -/
abbrev Substitution := Std.HashMap Expr Expr

/-- Every occurrence of a key of `s` in `e` gives way to its value. -/
def Expr.replace (s : Substitution) (e : Expr) : Checked Expr :=
  Rebuilding.run { before := (s[·]?), after := id } e

end Symex
