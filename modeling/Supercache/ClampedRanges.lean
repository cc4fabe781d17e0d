import Supercache.Collections

/-!
The positions in a window of a list, said without cutting the window to the list first: those
between the two bounds, where a negative bound counts from the end.
-/
namespace Supercache

def fromEnd (n x : ℤ) : ℤ := if x < 0 then n + x else x

/-- A position of the list between the bounds. -/
def Within (n : ℕ) (start stop : ℤ) (p : ℕ) : Prop :=
  p < n ∧ fromEnd n start ≤ p ∧ p ≤ fromEnd n stop

instance decidableWithin (n : ℕ) (start stop : ℤ) (p : ℕ) : Decidable (Within n start stop p) :=
  inferInstanceAs (Decidable (_ ∧ _ ∧ _))

theorem clampRange_eq (n : ℕ) (start stop : ℤ) : clampRange n start stop =
      if n = 0 ∨ min (fromEnd n stop) (n - 1) < max (fromEnd n start) 0 ∨
          n ≤ max (fromEnd n start) 0 then none
      else some ((max (fromEnd n start) 0).toNat, (min (fromEnd n stop) (n - 1)).toNat) := by
  have hlow : ∀ x : ℤ, (if x < 0 then 0 else x) = max x 0 := by
    intro x
    split <;> omega
  have hhigh : ∀ x : ℤ, (if n ≤ x then (n : ℤ) - 1 else x) = min x (n - 1) := by
    intro x
    split <;> omega
  unfold clampRange
  simp only [hlow, hhigh, Int.natCast_eq_zero]
  by_cases hn : n = 0
  · rw [if_pos hn, if_pos (.inl hn)]
  · simp only [hn, if_false, false_or, fromEnd]

theorem within_of_clampRange {n : ℕ} {start stop : ℤ} {lo hi : ℕ}
    (h : clampRange n start stop = some (lo, hi)) :
    lo ≤ hi ∧ hi < n ∧ ∀ p, Within n start stop p ↔ lo ≤ p ∧ p ≤ hi := by
  rw [clampRange_eq] at h
  unfold Within
  generalize fromEnd n start = first at h ⊢
  generalize fromEnd n stop = last at h ⊢
  by_cases hout : n = 0 ∨ min last (↑n - 1) < max first 0 ∨ ↑n ≤ max first 0
  · rw [if_pos hout] at h
    simp at h
  · rw [if_neg hout] at h
    rw [Option.some.injEq, Prod.mk.injEq] at h
    obtain ⟨rfl, rfl⟩ := h
    exact ⟨by omega, by omega, fun p => by omega⟩

theorem not_within_of_clampRange {n : ℕ} {start stop : ℤ} (h : clampRange n start stop = none)
    (p : ℕ) : ¬ Within n start stop p := by
  rw [clampRange_eq] at h
  unfold Within
  generalize fromEnd n start = first at h ⊢
  generalize fromEnd n stop = last at h ⊢
  split at h
  · omega
  · simp at h

theorem within_all {n p : ℕ} : Within n 0 (-1) p ↔ p < n := by
  have hfirst : fromEnd n 0 = 0 := rfl
  have hlast : fromEnd n (-1) = n + -1 := rfl
  rw [Within, hfirst, hlast]
  omega

end Supercache
