import Supercache.Wire

/-!
IEEE numbers as bit patterns. Sign and magnitude give the order of all values
other than NaN, with both zeros equal, so comparisons need no arithmetic. The
same patterns go over the wire as little-endian words.
-/
namespace Supercache.FloatBits

open Wire

def mag64 (b : UInt64) : ℕ := b.toNat % 2 ^ 63

def isNaN (b : UInt64) : Bool := 0x7FF0000000000000 < mag64 b

def isInf (b : UInt64) : Bool := mag64 b = 0x7FF0000000000000

def ordKey (b : UInt64) : ℤ := if b.toNat < 2 ^ 63 then mag64 b else -(mag64 b)

def ltBits (a b : UInt64) : Bool := !isNaN a && !isNaN b && decide (ordKey a < ordKey b)

def leBits (a b : UInt64) : Bool := !isNaN a && !isNaN b && decide (ordKey a ≤ ordKey b)

def eqBits (a b : UInt64) : Bool := !isNaN a && !isNaN b && decide (ordKey a = ordKey b)

def isFinite32 (b : UInt32) : Bool := b.toNat % 2 ^ 31 < 0x7F800000

def putBits (b : UInt64) : Bytes := leBytes 8 b.toNat

def readBits (b : Bytes) : Option (UInt64 × Bytes) :=
  if b.length < 8 then none else some (UInt64.ofNat (leNat (b.take 8)), b.drop 8)

@[simp]
theorem putBits_length (b : UInt64) : (putBits b).length = 8 := leBytes_length 8 b.toNat

theorem readBits_putBits (b : UInt64) (rest : Bytes) :
    readBits (putBits b ++ rest) = some (b, rest) := by
  have hlen : ¬ (putBits b ++ rest).length < 8 := by simp
  have htake : (putBits b ++ rest).take 8 = putBits b := by
    rw [List.take_append_of_le_length (by simp), List.take_of_length_le (by simp)]
  have hdrop : (putBits b ++ rest).drop 8 = rest := by
    rw [List.drop_append_of_le_length (by simp), List.drop_of_length_le (by simp), List.nil_append]
  have hval : UInt64.ofNat (leNat (putBits b)) = b := by
    rw [putBits, leNat_leBytes, Nat.mod_eq_of_lt (by simpa using b.toNat_lt), UInt64.ofNat_toNat]
  simp only [readBits, hlen, if_false, htake, hdrop, hval]

end Supercache.FloatBits
