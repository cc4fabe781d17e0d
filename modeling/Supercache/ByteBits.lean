import Mathlib

/-!
A list of bytes as a sequence of bits, the least significant bit of each byte first. It is
zero past the end of the list. Bytes are determined by their bits, and writing a byte changes
eight consecutive bits.
-/
namespace Supercache.ByteBits

def bit (b : List UInt8) (n : ℕ) : Bool := (b.getD (n / 8) 0).toBitVec.getLsbD (n % 8)

theorem bit_of_length_le {b : List UInt8} {n : ℕ} (h : 8 * b.length ≤ n) : bit b n = false := by
  have hbyte : b.getD (n / 8) 0 = 0 := by
    rw [List.getD_eq_getElem?_getD, List.getElem?_eq_none (by omega), Option.getD_none]
  rw [bit, hbyte]
  exact BitVec.getLsbD_zero

theorem getLsbD_getD (b : List UInt8) (j k : ℕ) (hk : k < 8) :
    (b.getD j 0).toBitVec.getLsbD k = bit b (8 * j + k) := by
  have hdiv : (8 * j + k) / 8 = j := by omega
  have hmod : (8 * j + k) % 8 = k := by omega
  rw [bit, hdiv, hmod]

/-- Bytes with the same bits are the same. -/
theorem eq_of_bit_eq {a b : List UInt8} (hlen : a.length = b.length)
    (h : ∀ n < 8 * a.length, bit a n = bit b n) : a = b := by
  refine List.ext_getElem hlen fun j hj hj' => ?_
  have hbyte : a.getD j 0 = b.getD j 0 := by
    refine UInt8.toBitVec_inj.mp (BitVec.eq_of_getLsbD_eq fun k hk => ?_)
    rw [getLsbD_getD a j k hk, getLsbD_getD b j k hk]
    exact h _ (by omega)
  rwa [List.getD_eq_getElem _ _ hj, List.getD_eq_getElem _ _ hj'] at hbyte

/-- A byte written in its place. -/
theorem bit_modify {b : List UInt8} {n : ℕ} (hn : n < 8 * b.length) (j : ℕ) (f : UInt8 → UInt8) :
    bit (b.modify j f) n =
      if n / 8 = j then (f (b.getD j 0)).toBitVec.getLsbD (n % 8) else bit b n := by
  rw [bit, List.getD_eq_getElem?_getD, List.getElem?_modify]
  by_cases heq : j = n / 8
  · simp only [if_pos heq]
    have hj : j < b.length := by omega
    rw [if_pos heq.symm, ← heq, List.getElem?_eq_getElem hj, List.getD_eq_getElem _ _ hj]
    rfl
  · simp only [if_neg heq]
    rw [if_neg (Ne.symm heq), bit, List.getD_eq_getElem?_getD, id_map']

end Supercache.ByteBits
