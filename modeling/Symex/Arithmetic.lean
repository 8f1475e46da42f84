namespace Symex

/-- The `n`-th power of two. -/
abbrev pow2 (n : Nat) : Nat := Nat.pow 2 n

end Symex
