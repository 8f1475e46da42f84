import Symex.Arithmetic

namespace Symex

/-- A place in a random stream. -/
structure Rng where
  key : Vector UInt32 8
  /-- The number of words taken so far. -/
  position : Nat := 0

namespace Rng

/-- Draws the words of the key one after another. -/
def expandSeed : Nat → UInt64 → List UInt32
  | 0, _ => []
  | n + 1, s =>
    let s := s * 6364136223846793005 + 11634580027462260723
    let x := (((s >>> 18) ^^^ s) >>> 27).toUInt32
    let turn := (s >>> 59).toUInt32
    ((x >>> turn) ||| (x <<< ((32 - turn) % 32))) :: expandSeed n s

theorem length_expandSeed (n : Nat) (s : UInt64) : (expandSeed n s).length = n := by
  induction n generalizing s with
  | zero => rfl
  | succ n ih => simp [expandSeed, ih]

def ofSeed (seed : Nat) : Rng :=
  { key := ⟨(expandSeed 8 seed.toUInt64).toArray, by simp [length_expandSeed]⟩ }

def rotate (x : UInt32) (n : UInt32) : UInt32 := (x <<< n) ||| (x >>> (32 - n))

abbrev Block := Vector UInt32 16

/-- One quarter of a round, on four places of a block. -/
def quarter (a b c d : Fin 16) (v : Block) : Block :=
  let v := v.set a (v[a] + v[b])
  let v := v.set d (rotate (v[d] ^^^ v[a]) 16)
  let v := v.set c (v[c] + v[d])
  let v := v.set b (rotate (v[b] ^^^ v[c]) 12)
  let v := v.set a (v[a] + v[b])
  let v := v.set d (rotate (v[d] ^^^ v[a]) 8)
  let v := v.set c (v[c] + v[d])
  v.set b (rotate (v[b] ^^^ v[c]) 7)

/-- A round on the columns and a round on the diagonals. -/
def doubleRound (v : Block) : Block :=
  let v := quarter 0 4 8 12 v
  let v := quarter 1 5 9 13 v
  let v := quarter 2 6 10 14 v
  let v := quarter 3 7 11 15 v
  let v := quarter 0 5 10 15 v
  let v := quarter 1 6 11 12 v
  let v := quarter 2 7 8 13 v
  quarter 3 4 9 14 v

/-- The block of the stream with number `counter`. -/
def block (key : Vector UInt32 8) (counter : Nat) : Block :=
  let start : Block := #v[0x61707865, 0x3320646e, 0x79622d32, 0x6b206574,
    key[0], key[1], key[2], key[3], key[4], key[5], key[6], key[7],
    counter.toUInt32, (counter / pow2 32).toUInt32, 0, 0]
  let mixed := Nat.repeat doubleRound 6 start
  Vector.ofFn fun i ↦ mixed[i] + start[i]

def next32 (r : Rng) : Nat × Rng :=
  let words := block r.key (r.position / 16)
  ((words.get ⟨r.position % 16, Nat.mod_lt _ (by decide)⟩).toNat, { r with position := r.position + 1 })

/-- The next word of 64 bits, its low half first. -/
def next64 (r : Rng) : Nat × Rng :=
  let (low, r) := r.next32
  let (high, r) := r.next32
  (low + high * pow2 32, r)

def coin (r : Rng) : Bool × Rng :=
  let (x, r) := r.next64
  (x < pow2 63, r)

def bitLength (n : Nat) : Nat := if n = 0 then 0 else n.log2 + 1

/-- A number below `n`, drawn from words of `bits` bits. The high half of the product of a word with
`n` is the result; words whose low half lies beyond the last full zone are drawn again. -/
def below (bits : Nat) (draw : Rng → Nat × Rng) (n : Nat) : Nat → Rng → Nat × Rng
  | 0, r => (0, r)
  | tries + 1, r =>
    let zone := n <<< (bits - bitLength n) - 1
    let (x, r) := draw r
    let product := x * n
    if product % pow2 bits ≤ zone then (product / pow2 bits, r) else below bits draw n tries r

def index (r : Rng) (n : Nat) : Nat × Rng := below 64 next64 n 1000 r

/-- Puts the items of a list in a random order: from the last place on, each is exchanged with one of
those up to it. -/
def shuffle {α : Type} (items : Array α) (r : Rng) : Array α × Rng :=
  (List.range (items.size - 1)).foldl (fun (items, r) k ↦
    let i := items.size - 1 - k
    let (j, r) := below 32 next32 (i + 1) 1000 r
    (items.swapIfInBounds i j, r)) (items, r)

end Rng

end Symex
