namespace Symex.Bytes

/-- Buffers are equal where their bytes are. -/
instance decidableEq : DecidableEq ByteArray := ByteArray.instDecidableEq

def zeros (n : Nat) : ByteArray :=
  if n = 0 then .empty
  else
    let half := zeros (n / 2)
    if n % 2 = 0 then half ++ half else (half ++ half).push 0
termination_by n

theorem size_zeros (n : Nat) : (zeros n).size = n := by
  induction n using Nat.strongRecOn with
  | ind n ih =>
    unfold zeros
    split
    · simp_all
    · rename_i h
      have := ih (n / 2) (by omega)
      dsimp only
      split <;> simp [this] <;> omega

def indexed (bytes : ByteArray) : List (Nat × UInt8) :=
  (List.range bytes.size).map fun i ↦ (i, bytes[i]?.getD 0)

end Symex.Bytes
