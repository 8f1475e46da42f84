import Symex.Expr.Substitution
import Symex.Proofs.SettledTerms

namespace Symex

open Checked

mutual

def Expr.nodes : Expr → List Expr
  | .const v w => [.const v w]
  | .read u i => .read u i :: (u.nodes ++ i.nodes)
  | .select c t f => .select c t f :: (c.nodes ++ t.nodes ++ f.nodes)
  | .concat m l => .concat m l :: (m.nodes ++ l.nodes)
  | .extract x o w => .extract x o w :: x.nodes
  | .zext x w => .zext x w :: x.nodes
  | .sext x w => .sext x w :: x.nodes
  | .not x => .not x :: x.nodes
  | .binary op l r => .binary op l r :: (l.nodes ++ r.nodes)
  | .compare op l r => .compare op l r :: (l.nodes ++ r.nodes)

def Updates.nodes : Updates → List Expr
  | .base _ => []
  | .write i x older => i.nodes ++ x.nodes ++ older.nodes

end

/-- What the constructor of a node makes of the parts that the node has. -/
def Expr.remade : Expr → Checked Expr
  | .const v w => constant v w
  | .read u i => mkRead u i
  | .select c t f => mkSelect c t f
  | .concat m l => mkConcat m l
  | .extract x o w => mkExtract x o w
  | .zext x w => mkZext x w
  | .sext x w => mkSext x w
  | .not x => return mkNot x
  | .binary op l r => mkBinary op l r
  | .compare op l r => mkCompare op l r

mutual

def Expr.rebuild : Expr → Checked Expr
  | .const v w => Expr.constant v w
  | .read u i => do Expr.mkRead (← u.rebuild) (← i.rebuild)
  | .select c t f => do Expr.mkSelect (← c.rebuild) (← t.rebuild) (← f.rebuild)
  | .concat m l => do Expr.mkConcat (← m.rebuild) (← l.rebuild)
  | .extract x o w => do Expr.mkExtract (← x.rebuild) o w
  | .zext x w => do Expr.mkZext (← x.rebuild) w
  | .sext x w => do Expr.mkSext (← x.rebuild) w
  | .not x => return Expr.mkNot (← x.rebuild)
  | .binary op l r => do Expr.mkBinary op (← l.rebuild) (← r.rebuild)
  | .compare op l r => do Expr.mkCompare op (← l.rebuild) (← r.rebuild)

def Updates.rebuild : Updates → Checked Updates
  | .base array => return .base array
  | .write i x older => do (← older.rebuild).extend (← i.rebuild) (← x.rebuild)

end

theorem Expr.Settled.remade_eq {e : Expr} (h : e.Settled) (hwf : e.WellFormed) : e.remade = .ok e := by
  cases e with
  | const v w =>
    simp only [WellFormed] at hwf
    exact constant_eq_ok.2 ⟨⟨hwf.1, hwf.2.1⟩, by rw [word, Bits.trunc_of_lt hwf.2.2]⟩
  | read u i =>
    simp only [WellFormed] at hwf
    exact mkRead_eq_ok.2 ⟨hwf.2.2, h.1⟩
  | select c t f =>
    simp only [WellFormed] at hwf
    exact mkSelect_eq_ok.2 ⟨hwf.2.2.2, h.1⟩
  | concat m l =>
    simp only [WellFormed] at hwf
    exact mkConcat_eq_ok.2 ⟨hwf.2.2, h.1⟩
  | extract x o w =>
    simp only [WellFormed] at hwf
    exact mkExtract_eq_ok.2 ⟨hwf.2, h.1⟩
  | zext x w => exact h.1
  | sext x w => exact h.1
  | not x => exact congrArg Except.ok h.1
  | binary op l r =>
    simp only [WellFormed] at hwf
    exact mkBinary_eq_ok.2 ⟨hwf.2.2, h.1⟩
  | compare op l r =>
    simp only [WellFormed] at hwf
    exact mkCompare_eq_ok.2 ⟨hwf.2.2, h.1⟩

mutual

theorem Expr.Settled.of_mem_nodes {e x : Expr} (h : e.Settled) (hwf : e.WellFormed) (hx : x ∈ e.nodes) :
    x.Settled ∧ x.WellFormed := by
  have hself := hwf
  match e with
  | .const v w =>
    obtain rfl := List.mem_singleton.1 hx
    exact ⟨h, hwf⟩
  | .read u i =>
    simp only [Expr.WellFormed] at hwf
    simp only [Expr.nodes, List.mem_cons, List.mem_append] at hx
    obtain rfl | hx | hx := hx
    · exact ⟨h, hself⟩
    · exact Updates.Settled.of_mem_nodes h.2.1 hwf.1 hx
    · exact Expr.Settled.of_mem_nodes h.2.2 hwf.2.1 hx
  | .select c t f =>
    simp only [Expr.WellFormed] at hwf
    simp only [Expr.nodes, List.mem_cons, List.mem_append] at hx
    obtain rfl | (hx | hx) | hx := hx
    · exact ⟨h, hself⟩
    · exact Expr.Settled.of_mem_nodes h.2.1 hwf.1 hx
    · exact Expr.Settled.of_mem_nodes h.2.2.1 hwf.2.1 hx
    · exact Expr.Settled.of_mem_nodes h.2.2.2 hwf.2.2.1 hx
  | .concat l r | .binary op l r | .compare op l r =>
    simp only [Expr.WellFormed] at hwf
    simp only [Expr.nodes, List.mem_cons, List.mem_append] at hx
    obtain rfl | hx | hx := hx
    · exact ⟨h, hself⟩
    · exact Expr.Settled.of_mem_nodes h.2.1 hwf.1 hx
    · exact Expr.Settled.of_mem_nodes h.2.2 hwf.2.1 hx
  | .extract y o w | .zext y w | .sext y w =>
    simp only [Expr.WellFormed] at hwf
    obtain rfl | hx := List.mem_cons.1 hx
    · exact ⟨h, hself⟩
    · exact Expr.Settled.of_mem_nodes h.2 hwf.1 hx
  | .not y =>
    simp only [Expr.WellFormed] at hwf
    obtain rfl | hx := List.mem_cons.1 hx
    · exact ⟨h, hself⟩
    · exact Expr.Settled.of_mem_nodes h.2 hwf hx

theorem Updates.Settled.of_mem_nodes {u : Updates} {x : Expr} (h : u.Settled) (hwf : u.WellFormed)
    (hx : x ∈ u.nodes) : x.Settled ∧ x.WellFormed := by
  match u with
  | .base array => cases hx
  | .write i y older =>
    simp only [Updates.WellFormed] at hwf
    simp only [Updates.nodes, List.mem_append] at hx
    obtain (hx | hx) | hx := hx
    · exact Expr.Settled.of_mem_nodes h.1 hwf.1 hx
    · exact Expr.Settled.of_mem_nodes h.2.1 hwf.2.1 hx
    · exact Updates.Settled.of_mem_nodes h.2.2 hwf.2.2.1 hx

end

mutual

theorem Expr.Settled.rebuild_eq {e : Expr} (h : e.Settled) (hwf : e.WellFormed) : e.rebuild = .ok e := by
  have hself := h.remade_eq hwf
  match e with
  | .const v w => exact hself
  | .read u i =>
    simp only [Expr.WellFormed] at hwf
    rw [Expr.rebuild, Updates.Settled.rebuild_eq h.2.1 hwf.1, ok_bind, Expr.Settled.rebuild_eq h.2.2 hwf.2.1, ok_bind]
    exact hself
  | .select c t f =>
    simp only [Expr.WellFormed] at hwf
    rw [Expr.rebuild, Expr.Settled.rebuild_eq h.2.1 hwf.1, ok_bind, Expr.Settled.rebuild_eq h.2.2.1 hwf.2.1, ok_bind,
      Expr.Settled.rebuild_eq h.2.2.2 hwf.2.2.1, ok_bind]
    exact hself
  | .concat l r | .binary op l r | .compare op l r =>
    simp only [Expr.WellFormed] at hwf
    rw [Expr.rebuild, Expr.Settled.rebuild_eq h.2.1 hwf.1, ok_bind, Expr.Settled.rebuild_eq h.2.2 hwf.2.1, ok_bind]
    exact hself
  | .extract x o w | .zext x w | .sext x w =>
    simp only [Expr.WellFormed] at hwf
    rw [Expr.rebuild, Expr.Settled.rebuild_eq h.2 hwf.1, ok_bind]
    exact hself
  | .not x =>
    simp only [Expr.WellFormed] at hwf
    rw [Expr.rebuild, Expr.Settled.rebuild_eq h.2 hwf, ok_bind]
    exact hself

theorem Updates.Settled.rebuild_eq {u : Updates} (h : u.Settled) (hwf : u.WellFormed) : u.rebuild = .ok u := by
  match u with
  | .base array => rfl
  | .write i x older =>
    simp only [Updates.WellFormed] at hwf
    rw [Updates.rebuild, Updates.Settled.rebuild_eq h.2.2 hwf.2.2.1, ok_bind, Expr.Settled.rebuild_eq h.1 hwf.1,
      ok_bind, Expr.Settled.rebuild_eq h.2.1 hwf.2.1, ok_bind]
    exact Updates.extend_eq_ok.2 ⟨hwf.2.2.2, rfl⟩

end

/-! ## New parts for old ones -/

namespace Updates

def entries : Updates → List (Expr × Expr)
  | .base _ => []
  | .write i x older => (i, x) :: older.entries

def ofEntries (root : NamedArray) (entries : List (Expr × Expr)) : Checked Updates :=
  entries.foldrM (fun p u ↦ u.extend p.1 p.2) (.base root)

def mapEntries (f : Expr → Checked Expr) (u : Updates) : Checked (List (Expr × Expr)) :=
  u.entries.mapM fun p ↦ do return (← f p.1, ← f p.2)

/-- The writes with what `f` gives for their parts, if `same` does not find all of it to be as before. -/
def map? (same : Expr → Expr → Bool) (f : Expr → Checked Expr) (u : Updates) : Checked (Option Updates) := do
  let entries ← u.mapEntries f
  if (entries.zip u.entries).all fun (p, q) ↦ same p.1 q.1 && same p.2 q.2 then return none
  else return some (← ofEntries u.root entries)

end Updates

/-- The node with what `f` gives for its parts. It stays as it is where `same` finds all of them to be as before. -/
def Expr.mapChildren (same : Expr → Expr → Bool) (f : Expr → Checked Expr) (e : Expr) : Checked Expr :=
  match e with
  | .const _ _ => return e
  | .read u i => do
    let i' ← f i
    let u' ← u.map? same f
    if same i' i && u'.isNone then return e else mkRead (u'.getD u) i'
  | .select c t g => do
    let c' ← f c
    let t' ← f t
    let g' ← f g
    if same c' c && same t' t && same g' g then return e else mkSelect c' t' g'
  | .concat m l => do
    let m' ← f m
    let l' ← f l
    if same m' m && same l' l then return e else mkConcat m' l'
  | .extract x o w => do
    let x' ← f x
    if same x' x then return e else mkExtract x' o w
  | .zext x w => do
    let x' ← f x
    if same x' x then return e else mkZext x' w
  | .sext x w => do
    let x' ← f x
    if same x' x then return e else mkSext x' w
  | .not x => do
    let x' ← f x
    if same x' x then return e else return mkNot x'
  | .binary op l r => do
    let l' ← f l
    let r' ← f r
    if same l' l && same r' r then return e else mkBinary op l' r'
  | .compare op l r => do
    let l' ← f l
    let r' ← f r
    if same l' l && same r' r then return e else mkCompare op l' r'

/-- The node made of what `f` gives for its parts. -/
def Expr.remake (f : Expr → Checked Expr) (e : Expr) : Checked Expr :=
  match e with
  | .const _ _ => return e
  | .read u i => do
    let i' ← f i
    mkRead (← Updates.ofEntries u.root (← u.mapEntries f)) i'
  | .select c t g => do mkSelect (← f c) (← f t) (← f g)
  | .concat m l => do mkConcat (← f m) (← f l)
  | .extract x o w => do mkExtract (← f x) o w
  | .zext x w => do mkZext (← f x) w
  | .sext x w => do mkSext (← f x) w
  | .not x => return mkNot (← f x)
  | .binary op l r => do mkBinary op (← f l) (← f r)
  | .compare op l r => do mkCompare op (← f l) (← f r)

section

variable {same : Expr → Expr → Bool} {f : Expr → Checked Expr} {e : Expr} {u : Updates}

theorem Checked.ite_pure_of_eq {α : Type} {p : Prop} [Decidable p] {k : Checked α} {a : α} (h : p → k = .ok a) :
    (if p then pure a else k) = k := by
  split
  · exact (h ‹_›).symm
  · rfl

theorem Updates.ofEntries_cons (root : NamedArray) (p : Expr × Expr) (l : List (Expr × Expr)) :
    ofEntries root (p :: l) = (do (← ofEntries root l).extend p.1 p.2) := by
  rw [ofEntries, List.foldrM_cons]
  rfl

theorem Updates.ofEntries_entries (hwf : u.WellFormed) : ofEntries u.root u.entries = .ok u := by
  induction u with
  | base array => rfl
  | write i x older ih =>
    simp only [WellFormed] at hwf
    have hroot : (Updates.write i x older).root = older.root := rfl
    rw [hroot, entries, ofEntries_cons, ih hwf.2.2.1, ok_bind]
    exact extend_eq_ok.2 ⟨hwf.2.2.2, rfl⟩

theorem Updates.length_mapEntries {l : List (Expr × Expr)} (h : u.mapEntries f = .ok l) :
    l.length = u.entries.length := by
  unfold mapEntries at h
  generalize u.entries = old at h
  induction old generalizing l with
  | nil =>
    obtain rfl := pure_eq_ok.1 h
    rfl
  | cons p old ih =>
    rw [List.mapM_cons] at h
    obtain ⟨q, -, h⟩ := bind_eq_ok.1 h
    obtain ⟨l', hl', h⟩ := bind_eq_ok.1 h
    obtain rfl := pure_eq_ok.1 h
    rw [List.length_cons, List.length_cons, ih hl']

variable (hsame : ∀ x y, same x y = true → x = y)
include hsame

theorem Updates.eq_entries_of_all {l l' : List (Expr × Expr)} (hlength : l.length = l'.length)
    (h : (l.zip l').all (fun (p, q) ↦ same p.1 q.1 && same p.2 q.2) = true) : l = l' := by
  induction l generalizing l' with
  | nil => exact (List.length_eq_zero_iff.1 hlength.symm).symm
  | cons p l ih =>
    cases l' with
    | nil => cases hlength
    | cons q l' =>
      simp only [List.zip_cons_cons, List.all_cons, Bool.and_eq_true] at h
      rw [ih (Nat.succ.inj hlength) h.2, Prod.ext (hsame _ _ h.1.1) (hsame _ _ h.1.2)]

theorem Updates.map?_bind (hwf : u.WellFormed) {α : Type} {k : Option Updates → Checked α} {k' : Updates → Checked α}
    (hnone : k none = k' u) (hsome : ∀ u', k (some u') = k' u') :
    u.map? same f >>= k = u.mapEntries f >>= fun entries ↦ ofEntries u.root entries >>= k' := by
  unfold map?
  cases hentries : u.mapEntries f with
  | error fault => rfl
  | ok entries =>
    rw [ok_bind, ok_bind]
    split
    · rename_i hall
      rw [eq_entries_of_all hsame (length_mapEntries hentries) hall, ofEntries_entries hwf]
      exact hnone
    · rw [bind_assoc]
      exact bind_congr hsome

theorem Expr.Settled.mapChildren_eq (h : e.Settled) (hwf : e.WellFormed) : e.mapChildren same f = e.remake f := by
  have hself := h.remade_eq hwf
  cases e with
  | const v w => rfl
  | read u i =>
    simp only [WellFormed] at hwf
    refine bind_congr fun i' ↦ Updates.map?_bind hsame hwf.1 ?_ fun u' ↦ ?_
    · refine Checked.ite_pure_of_eq fun hi ↦ ?_
      rw [Bool.and_eq_true] at hi
      rw [hsame _ _ hi.1]
      exact hself
    · exact if_neg (by simp)
  | select c t g =>
    refine bind_congr fun c' ↦ bind_congr fun t' ↦ bind_congr fun g' ↦ Checked.ite_pure_of_eq fun hall ↦ ?_
    simp only [Bool.and_eq_true] at hall
    obtain ⟨⟨hc, ht⟩, hg⟩ := hall
    rw [hsame _ _ hc, hsame _ _ ht, hsame _ _ hg]
    exact hself
  | concat l r | binary op l r | compare op l r =>
    refine bind_congr fun l' ↦ bind_congr fun r' ↦ Checked.ite_pure_of_eq fun hall ↦ ?_
    rw [Bool.and_eq_true] at hall
    rw [hsame _ _ hall.1, hsame _ _ hall.2]
    exact hself
  | extract x o w | zext x w | sext x w | not x =>
    refine bind_congr fun x' ↦ Checked.ite_pure_of_eq fun hx ↦ ?_
    rw [hsame _ _ hx]
    exact hself

end

/-! ## Rebuilding with a table -/

namespace Rebuilding

variable {w : Rebuilding} {e : Expr}

theorem applyUpdates_eq (w : Rebuilding) (u : Updates) :
    w.applyUpdates u = u.mapEntries w.apply >>= Updates.ofEntries u.root := by
  induction u with
  | base array => rw [applyUpdates]; rfl
  | write i x older ih =>
    have hroot : (Updates.write i x older).root = older.root := rfl
    have hentries : (Updates.write i x older).mapEntries w.apply = (do
        let i' ← w.apply i
        let x' ← w.apply x
        return (i', x') :: (← older.mapEntries w.apply)) := by
      rw [Updates.mapEntries, Updates.entries.eq_def, List.mapM_cons]
      simp only [bind_assoc, pure_bind]
      rfl
    rw [applyUpdates, ih, hroot, hentries]
    simp only [bind_assoc, pure_bind, Updates.ofEntries_cons]

theorem apply_eq_remake (h : e.Settled) (hwf : e.WellFormed) (hbefore : w.before e = none)
    (hconst : e.isConst = false) : w.apply e = w.after <$> e.remake w.apply := by
  have hself := h.remade_eq hwf
  have hnode {p : Prop} [Decidable p] {k : Checked Expr} (hk : p → k = .ok e) :
      (do return w.after (← if p then pure e else k)) = w.after <$> k := by
    split
    · rename_i hp
      rw [hk hp]
      rfl
    · rw [map_eq_pure_bind]
  unfold apply
  rw [hbefore]
  dsimp only
  cases e with
  | const v n => cases hconst
  | read u i =>
    unfold Expr.remake
    rw [map_bind]
    refine bind_congr fun i' ↦ ?_
    rw [map_bind, applyUpdates_eq, bind_assoc]
    refine bind_congr fun entries ↦ ?_
    rw [map_bind]
    refine bind_congr fun u' ↦ hnode ?_
    rintro ⟨rfl, rfl⟩
    exact hself
  | select c t f =>
    unfold Expr.remake
    simp only [map_bind]
    refine bind_congr fun c' ↦ bind_congr fun t' ↦ bind_congr fun f' ↦ hnode ?_
    rintro ⟨rfl, rfl, rfl⟩
    exact hself
  | concat l r | binary op l r | compare op l r =>
    unfold Expr.remake
    simp only [map_bind]
    refine bind_congr fun l' ↦ bind_congr fun r' ↦ hnode ?_
    rintro ⟨rfl, rfl⟩
    exact hself
  | extract x o n | zext x n | sext x n =>
    unfold Expr.remake
    simp only [map_bind]
    refine bind_congr fun x' ↦ hnode ?_
    rintro rfl
    exact hself
  | not x =>
    unfold Expr.remake
    simp only [map_bind]
    refine bind_congr fun x' ↦ ?_
    rw [map_pure]
    split
    · rename_i hx
      rw [hx, Except.ok.inj hself]
    · rfl

end Rebuilding

namespace RawTerm

/-- Every node of what the constructors build is what its own constructor makes of its parts. So the term is what it
is rebuilt to, and whether nodes with unchanged parts are found to be such makes no difference. -/
theorem remade_of_build {t : RawTerm} {e : Expr} (h : t.build = .ok e) :
    (∀ x ∈ e.nodes, x.remade = .ok x) ∧ e.rebuild = .ok e ∧
      ∀ x ∈ e.nodes, ∀ same : Expr → Expr → Bool, (∀ y z, same y z = true → y = z) →
        (∀ f, x.mapChildren same f = x.mapChildren (fun _ _ ↦ false) f) ∧
        ∀ w : Rebuilding, w.before x = none → x.isConst = false →
          w.apply x = w.after <$> x.mapChildren same w.apply := by
  have hsettled := build_settled h
  have hwf := (build_denotes (show (Assignment.mk true {}).free from rfl) h).wellFormed
  refine ⟨fun x hx ↦ ?_, hsettled.rebuild_eq hwf, fun x hx same hsame ↦ ?_⟩
  · obtain ⟨hx, hxwf⟩ := hsettled.of_mem_nodes hwf hx
    exact hx.remade_eq hxwf
  · obtain ⟨hx, hxwf⟩ := hsettled.of_mem_nodes hwf hx
    have hmap (f : Expr → Checked Expr) := hx.mapChildren_eq (f := f) hsame hxwf
    refine ⟨fun f ↦ ?_, fun w hbefore hconst ↦ ?_⟩
    · have hnever : ∀ y z : Expr, (fun _ _ ↦ false : Expr → Expr → Bool) y z = true → y = z := nofun
      rw [hmap, hx.mapChildren_eq hnever hxwf]
    · rw [hmap, Rebuilding.apply_eq_remake hx hxwf hbefore hconst]

/-- A sum that was turned around, with a read at an index that is written to at an unknown one. -/
theorem remade_of_build_turned :
    let writes : Updates := .write (.zext (.read (.base (.symbolic "x" 4)) (.const 0 32)) 32) (.const 7 8)
      (.base (.symbolic "x" 4))
    let e : Expr := .binary .add (.const 5 8) (.read writes (.const 2 32))
    e.remade = .ok e ∧ e.rebuild = .ok e ∧
      e.mapChildren (fun y z ↦ decide (y = z)) pure = e.mapChildren (fun _ _ ↦ false) pure := by
  intro writes e
  have hbuild : (RawTerm.binary .add (.read (.write (.zext (.read (.base (.symbolic "x" 4)) (.constant 0 32)) 32)
      (.constant 7 8) (.base (.symbolic "x" 4))) (.constant 2 32)) (.constant 5 8)).build = .ok e := rfl
  have he : e ∈ e.nodes := List.mem_cons_self
  obtain ⟨hremade, hrebuild, hmap⟩ := remade_of_build hbuild
  exact ⟨hremade e he, hrebuild, (hmap e he _ fun y z h ↦ of_decide_eq_true h).1 pure⟩

end RawTerm

end Symex
