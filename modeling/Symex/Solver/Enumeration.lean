import Symex.Assignment
import Symex.Bytes
import Symex.Expr.Reads
import Symex.Solver.Basic

namespace Symex

/-- The state of the enumeration: how many bits a question may depend on, and how many assignments
were tried so far. -/
structure Enumeration where
  maxBits : Nat := 20
  tried : Nat := 0

namespace Enumeration

/-- Separates the constraints that use one of `names` from the others. -/
def connected (names : Std.HashSet String) (pending : List (Expr × List String)) :
    List (Expr × List String) × List (Expr × List String) :=
  pending.partition fun p ↦ p.2.any names.contains

theorem length_connected (names : Std.HashSet String) (pending : List (Expr × List String)) :
    (connected names pending).1.length + (connected names pending).2.length = pending.length := by
  simp only [connected, List.partition_eq_filter_filter]
  induction pending with
  | nil => rfl
  | cons p rest ih =>
    simp only [List.filter_cons, Function.comp_apply]
    by_cases h : p.2.any names.contains = true
    · rw [if_pos h, if_neg (by rw [h]; decide), List.length_cons, List.length_cons]
      omega
    · rw [if_neg h, if_pos (by rw [eq_false_of_ne_true h]; rfl), List.length_cons,
        List.length_cons]
      omega

/-- The constraints of `pending` that are connected with `names` through arrays they use, those
connected directly first. -/
def relevantTo (names : Std.HashSet String) (pending : List (Expr × List String)) : List Expr :=
  match h : connected names pending with
  | ([], _) => []
  | (first :: others, rest) =>
    have : rest.length < pending.length := by
      have := length_connected names pending
      simp only [h, List.length_cons] at this
      omega
    let names := (first :: others).foldl (fun names p ↦ p.2.foldl (·.insert ·) names) names
    first.1 :: others.map (·.1) ++ relevantTo names rest
termination_by pending.length

/-- The constraints that share an array, directly or through others, with `e` or `arrays`. -/
def relevant (constraints : List Expr) (e : Expr) (arrays : List NamedArray) : List Expr :=
  let names := ((Expr.arrays [e]).toList ++ arrays).foldl (fun s a ↦ s.insert a.name)
    (∅ : Std.HashSet String)
  relevantTo names (constraints.map fun c ↦ (c, (Expr.arrays [c]).toList.map (·.name)))

/-- The bytes of an array that matter: all below `span`, and those at `indices`. -/
structure Extent where
  array : NamedArray
  span : Nat := 0
  indices : Std.TreeSet Nat := {}

namespace Extent

/-- A read at `index` is added. Where the index is unknown the whole of `array` matters. -/
def add (x : Extent) (array : NamedArray) (index : Expr) : Extent :=
  match index.value? with
  | some i => if i < array.size then { x with indices := x.indices.insert i } else x
  | none => { x with span := max x.span array.size }

def beyond (x : Extent) : List Nat := x.indices.toList.filter (x.span ≤ ·)

def count (x : Extent) : Nat := x.span + x.beyond.length

def positions (x : Extent) : List Nat := List.range x.span ++ x.beyond

end Extent

/-- The input bytes that `exprs` read, by array name. -/
def extents (exprs : List Expr) : List Extent :=
  let found := (Expr.reads exprs).foldl (fun found (array, index) ↦
    if array.isSymbolic then
      let x := found.getD array.name ⟨array, 0, {}⟩
      found.insert array.name (x.add array index)
    else found) (∅ : Std.TreeMap String Extent)
  found.toList.map (·.2)

/-- The next combination of the bytes at `positions`, the first of which runs fastest. -/
def advance (a : Assignment) : List (String × Nat) → Option Assignment
  | [] => none
  | (name, index) :: rest =>
    match (a.get? name).bind (·[index]?) with
    | none => advance a rest
    | some b =>
      let a := a.poke name index (b + 1)
      if b + 1 = 0 then advance a rest else some a

/-- Goes through the combinations from `a` on. Those under which `constraints` hold are shown to
`visit`, which may end the search. Gives what `visit` gathered, where it ended the search, and how
many combinations were tried. -/
def explore {β : Type} (constraints : List Expr) (positions : List (String × Nat))
    (visit : Assignment → β → β × Bool) (fuel : Nat) (a : Assignment) (gathered : β) (tried : Nat) :
    β × Option Assignment × Nat :=
  match fuel with
  | 0 => (gathered, none, tried)
  | fuel + 1 =>
    let (gathered, done) :=
      if a.satisfies? constraints == some true then visit a gathered else (gathered, false)
    if done then (gathered, some a, tried + 1)
    else
      match advance a positions with
      | none => (gathered, none, tried + 1)
      | some a => explore constraints positions visit fuel a gathered (tried + 1)

/-- Searches the assignments that satisfy the constraints relevant to the question. -/
def search {β : Type} (s : Enumeration) (q : Query) (arrays : List NamedArray)
    (visit : Assignment → β → β × Bool) (gathered : β) :
    Except SolverError (β × Option Assignment) × Enumeration :=
  let constraints := relevant q.constraints.toList q.expr arrays
  let extents := extents (constraints ++ [q.expr])
  let bits := (extents.map (·.count * 8)).foldr (· + ·) 0
  if s.maxBits < bits then
    (.error (.unsupported "enumeration" (
      "query depends on " ++ decimal bits ++ " symbolic bits but the limit is " ++
        decimal s.maxBits)), s)
  else if q.timeout = some 0 then (.error .timeout, s)
  else
    let start := extents.foldl (fun a x ↦ a.bind x.array.name (Bytes.zeros x.array.size))
      ({ free := true } : Assignment)
    let positions := extents.flatMap fun x ↦ x.positions.map fun i ↦ (x.array.name, i)
    let (gathered, found, tried) :=
      explore constraints positions visit (Nat.pow 256 positions.length) start gathered s.tried
    (.ok (gathered, found), { s with tried })

/-- Whether the expression is seen to hold, and seen to fail. -/
structure Seen where
  holding : Bool := false
  failing : Bool := false

/-- Takes note of the value under one more solution. -/
def Seen.note (seen : Seen) (value : Option Nat) : Seen :=
  match value with
  | none => seen
  | some 0 => { seen with failing := true }
  | some _ => { seen with holding := true }

def Seen.validity (seen : Seen) : Validity :=
  if !seen.failing then .always else if seen.holding then .sometimes else .never

def evaluate (q : Query) (s : Enumeration) : Except SolverError Validity × Enumeration :=
  let (answer, s) := s.search q [] (fun a (seen : Seen) ↦
    let seen := seen.note (a.value? q.expr)
    (seen, seen.holding && seen.failing)) {}
  (answer.map (·.1.validity), s)

def value (q : Query) (s : Enumeration) : Except SolverError Nat × Enumeration :=
  let (answer, s) := s.search q [] (fun _ _ ↦ ((), true)) ()
  (do
    match (← answer).2.bind (·.value? q.expr) with
    | some v => .ok v
    | none => .error .unsatisfiable, s)

def initialValues (q : Query) (arrays : List NamedArray) (s : Enumeration) :
    Except SolverError (Option (List ByteArray)) × Enumeration :=
  let (answer, s) := s.search q arrays (fun a _ ↦ ((), a.value? q.expr == some 0)) ()
  (answer.map fun (_, found) ↦ found.map fun a ↦
    arrays.map fun array ↦ (a.get? array.name).getD (Bytes.zeros array.size), s)

/-- The enumeration as something that answers questions. -/
def backend : Backend Enumeration where
  evaluate := evaluate
  mustBeTrue q s :=
    let (answer, s) := evaluate q s
    (answer.map (· == .always), s)
  value := value
  initialValues := initialValues

end Enumeration

end Symex
