import Mathlib

/-!
Signed 64-bit integers and the integers they stand for. Arithmetic is exact as long as the
result is in range. A program that is given its arithmetic can be run in two ways: with sums that
wrap, and with sums that fail instead. Where the second run does not fail no sum wraps in the first.
-/
namespace Supercache.MachineInt

def InRange (v : ℤ) : Prop := -2 ^ 63 ≤ v ∧ v < 2 ^ 63

instance decidableInRange (v : ℤ) : Decidable (InRange v) := inferInstanceAs (Decidable (_ ∧ _))

theorem inRange_toInt (x : Int64) : InRange x.toInt := ⟨x.le_toInt, x.toInt_lt⟩

theorem bmod_eq_self {v : ℤ} (h : InRange v) : v.bmod (2 ^ 64) = v := by
  have hlow := h.1
  have hhigh := h.2
  exact Int.bmod_eq_of_le (by norm_num; omega) (by norm_num; omega)

theorem toInt_add {x y : Int64} (h : InRange (x.toInt + y.toInt)) :
    (x + y).toInt = x.toInt + y.toInt := by
  rw [Int64.toInt_add, bmod_eq_self h]

theorem toInt_sub {x y : Int64} (h : InRange (x.toInt - y.toInt)) :
    (x - y).toInt = x.toInt - y.toInt := by
  rw [Int64.toInt_sub, bmod_eq_self h]

structure Arith where
  add : Int64 → Int64 → Option Int64
  sub : Int64 → Int64 → Option Int64
  add_of_inRange : ∀ {x y}, InRange (x.toInt + y.toInt) → add x y = some (x + y)
  sub_of_inRange : ∀ {x y}, InRange (x.toInt - y.toInt) → sub x y = some (x - y)

def wrapping : Arith where
  add x y := some (x + y)
  sub x y := some (x - y)
  add_of_inRange _ := rfl
  sub_of_inRange _ := rfl

def checked : Arith where
  add x y := if InRange (x.toInt + y.toInt) then some (x + y) else none
  sub x y := if InRange (x.toInt - y.toInt) then some (x - y) else none
  add_of_inRange h := if_pos h
  sub_of_inRange h := if_pos h

theorem Arith.exists_add (a : Arith) {x y : Int64} (h : InRange (x.toInt + y.toInt)) :
    ∃ z, a.add x y = some z ∧ z.toInt = x.toInt + y.toInt :=
  ⟨x + y, a.add_of_inRange h, toInt_add h⟩

theorem Arith.exists_sub (a : Arith) {x y : Int64} (h : InRange (x.toInt - y.toInt)) :
    ∃ z, a.sub x y = some z ∧ z.toInt = x.toInt - y.toInt :=
  ⟨x - y, a.sub_of_inRange h, toInt_sub h⟩

end Supercache.MachineInt
