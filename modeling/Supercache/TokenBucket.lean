import Mathlib.Algebra.Order.Field.Basic
import Mathlib.Tactic.Linarith

/-!
A token bucket over an ordered field. Tokens flow in at a constant rate up to a capacity, and a
call takes one if there is one. The level of the bucket pays for every call that is granted: a
window of time grants no more calls than the bucket can hold and the window lets in.
-/
namespace Supercache.TokenBucket

structure Bucket (K : Type*) where
  level : K
  last : K

def inWindow {K : Type*} [LinearOrder K] (t0 t1 : K) (times : List K) : ℕ :=
  (times.filter fun t => t0 ≤ t ∧ t ≤ t1).length

section Window

variable {K : Type*} [LinearOrder K] {t t0 t1 : K} {times : List K}

theorem inWindow_cons (t : K) (times : List K) : inWindow t0 t1 (t :: times) =
    (if t0 ≤ t ∧ t ≤ t1 then 1 else 0) + inWindow t0 t1 times := by
  unfold inWindow
  rw [List.filter_cons]
  by_cases hin : decide (t0 ≤ t ∧ t ≤ t1) = true
  · rw [if_pos hin]
    rw [if_pos (by simpa using hin), List.length_cons, Nat.add_comm]
  · rw [if_neg hin]
    rw [if_neg (by simpa using hin), Nat.zero_add]

theorem inWindow_of_late (h : ∀ t ∈ times, t1 < t) : inWindow t0 t1 times = 0 := by
  unfold inWindow
  rw [List.length_eq_zero_iff, List.filter_eq_nil_iff]
  intro t ht
  simp [h t ht]

end Window

namespace Bucket

variable {K : Type*} [Field K] [LinearOrder K]

def refill (cap rate : K) (b : Bucket K) (t : K) : K := min (b.level + (t - b.last) * rate) cap

def take (cap rate : K) (b : Bucket K) (t : K) : Bucket K × Bool :=
  if b.refill cap rate t < 1 then (⟨b.refill cap rate t, t⟩, false)
  else (⟨b.refill cap rate t - 1, t⟩, true)

def granted (cap rate : K) (b : Bucket K) : List K → List K
  | [] => []
  | t :: times =>
    let rest := (b.take cap rate t).1.granted cap rate times
    if (b.take cap rate t).2 then t :: rest else rest

/-- The level is one that the bucket can have. -/
structure Within (cap : K) (b : Bucket K) : Prop where
  nonneg : 0 ≤ b.level
  le_cap : b.level ≤ cap

variable {cap rate : K} {b : Bucket K} {t t0 t1 : K} {times : List K}

theorem take_last : (b.take cap rate t).1.last = t := by
  unfold take
  split <;> rfl

theorem take_granted : (b.take cap rate t).2 = true ↔ 1 ≤ b.refill cap rate t := by
  unfold take
  by_cases hlow : refill cap rate b t < 1
  · simp [hlow]
  · simp [hlow, not_lt.mp hlow]

/-- A call costs one token if it is granted and nothing otherwise. -/
theorem take_level : (b.take cap rate t).1.level =
    b.refill cap rate t - if (b.take cap rate t).2 then 1 else 0 := by
  unfold take
  split <;> simp

theorem mem_of_mem_granted (h : t ∈ b.granted cap rate times) : t ∈ times := by
  induction times generalizing b with
  | nil => exact h
  | cons s times ih =>
    rw [granted] at h
    split at h
    · rcases List.mem_cons.mp h with heq | hrest
      · exact heq ▸ List.mem_cons_self
      · exact List.mem_cons_of_mem s (ih hrest)
    · exact List.mem_cons_of_mem s (ih h)

theorem inWindow_granted_cons (b : Bucket K) (t : K) (times : List K) :
    inWindow t0 t1 (b.granted cap rate (t :: times)) =
      (if (b.take cap rate t).2 ∧ t0 ≤ t ∧ t ≤ t1 then 1 else 0) +
        inWindow t0 t1 ((b.take cap rate t).1.granted cap rate times) := by
  rw [granted]
  cases hgranted : (b.take cap rate t).2 with
  | true => simp [inWindow_cons]
  | false => simp

variable [IsStrictOrderedRing K]

variable (h : b.Within cap)
include h

theorem Within.refill_nonneg (hrate : 0 ≤ rate) (ht : b.last ≤ t) :
    0 ≤ b.refill cap rate t := by
  have hflow : 0 ≤ (t - b.last) * rate := mul_nonneg (sub_nonneg.mpr ht) hrate
  exact le_min (add_nonneg h.nonneg hflow) (h.nonneg.trans h.le_cap)

theorem Within.take (hrate : 0 ≤ rate) (ht : b.last ≤ t) :
    (b.take cap rate t).1.Within cap := by
  have hrefill := h.refill_nonneg hrate ht
  have hcap : b.refill cap rate t ≤ cap := min_le_right _ _
  constructor
  · rw [take_level]
    by_cases hgranted : (Bucket.take cap rate b t).2
    · rw [if_pos hgranted]
      linarith [take_granted.mp hgranted]
    · rw [if_neg hgranted]
      linarith
  · rw [take_level]
    split <;> linarith

/-- After a pause of the time that one token takes to flow in there is one. -/
theorem Within.take_granted_of_pause (hcap : 1 ≤ cap)
    (hpause : 1 ≤ (t - b.last) * rate) : (b.take cap rate t).2 = true := by
  rw [take_granted]
  exact le_min (by linarith [h.nonneg]) hcap

variable (hrate : 0 ≤ rate) (hsorted : (b.last :: times).Pairwise (· ≤ ·))
include hrate hsorted

/-- The calls up to `t1` are paid by what is there and what flows in. -/
theorem Within.inWindow_le_level (hlast : b.last ≤ t1) :
    (inWindow t0 t1 (b.granted cap rate times) : K) ≤ b.level + (t1 - b.last) * rate := by
  have hflow : 0 ≤ (t1 - b.last) * rate := mul_nonneg (sub_nonneg.mpr hlast) hrate
  induction times generalizing b with
  | nil => simpa [granted, inWindow] using add_nonneg h.nonneg hflow
  | cons t times ih =>
    obtain ⟨hfirst, hrest⟩ := List.pairwise_cons.mp hsorted
    have ht : b.last ≤ t := hfirst t List.mem_cons_self
    by_cases hin : t ≤ t1
    · have hrefill : b.refill cap rate t ≤ b.level + (t - b.last) * rate := min_le_left _ _
      have hnext := ih (h.take hrate ht) (by rwa [take_last]) (by rwa [take_last])
        (mul_nonneg (by rw [take_last]; exact sub_nonneg.mpr hin) hrate)
      rw [take_last, take_level] at hnext
      rw [inWindow_granted_cons]
      push_cast
      by_cases hgranted : (Bucket.take cap rate b t).2
      · rw [if_pos hgranted] at hnext
        split <;> linarith
      · rw [if_neg hgranted] at hnext
        rw [if_neg (fun hboth => hgranted hboth.1)]
        linarith
    · -- every later call is outside the window
      have hlate : ∀ s ∈ b.granted cap rate (t :: times), t1 < s := by
        intro s hs
        rcases List.mem_cons.mp (mem_of_mem_granted hs) with rfl | hmem
        · exact not_le.mp hin
        · exact (not_le.mp hin).trans_le ((List.pairwise_cons.mp hrest).1 s hmem)
      rw [inWindow_of_late hlate, Nat.cast_zero]
      exact add_nonneg h.nonneg hflow

/-- A window grants what the bucket can hold and what flows in while it lasts. -/
theorem Within.inWindow_le_cap (hwindow : t0 ≤ t1) :
    (inWindow t0 t1 (b.granted cap rate times) : K) ≤ cap + rate * (t1 - t0) := by
  have hcap : 0 ≤ cap := h.nonneg.trans h.le_cap
  have hflow : 0 ≤ rate * (t1 - t0) := mul_nonneg hrate (sub_nonneg.mpr hwindow)
  induction times generalizing b with
  | nil => simpa [granted, inWindow] using add_nonneg hcap hflow
  | cons t times ih =>
    obtain ⟨hfirst, hrest⟩ := List.pairwise_cons.mp hsorted
    have ht : b.last ≤ t := hfirst t List.mem_cons_self
    have hnext := h.take hrate ht
    rw [inWindow_granted_cons]
    by_cases hin : t0 ≤ t ∧ t ≤ t1
    · -- the first call of the window finds at most a full bucket
      have hrefill : b.refill cap rate t ≤ cap := min_le_right _ _
      have hlater : (inWindow t0 t1 ((b.take cap rate t).1.granted cap rate times) : K) ≤
          (b.take cap rate t).1.level + (t1 - (b.take cap rate t).1.last) * rate :=
        hnext.inWindow_le_level hrate (by rwa [take_last]) (by rw [take_last]; exact hin.2)
      have hshrink : (t1 - t) * rate ≤ rate * (t1 - t0) := by
        rw [mul_comm]
        exact mul_le_mul_of_nonneg_left (by linarith [hin.1]) hrate
      rw [take_last, take_level] at hlater
      push_cast
      by_cases hgranted : (Bucket.take cap rate b t).2
      · rw [if_pos hgranted] at hlater
        split <;> linarith
      · rw [if_neg hgranted] at hlater
        rw [if_neg (fun hboth => hgranted hboth.1)]
        linarith
    · rw [if_neg (fun hboth => hin hboth.2), Nat.zero_add]
      exact ih hnext (by rwa [take_last])

end Bucket

end Supercache.TokenBucket
