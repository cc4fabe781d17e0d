import Supercache.ClampedRanges
import Supercache.SortedEntries

/-!
The queries of a sorted set. There is one arrangement of the members by score and then by bytes. A
query by rank returns the ranks between its bounds, and a query by score, though it stops at the
first score that is too large, the members whose score lies between the bounds.
-/
namespace Supercache

section Windows

variable {α : Type}

theorem filterMap_range' (xs : List α) (lo k : ℕ) (h : lo + k ≤ xs.length) :
    ((List.range' lo k).filterMap fun r => xs[r]?) = (xs.drop lo).take k := by
  induction k generalizing lo with
  | zero => simp
  | succ k ih =>
    have hlo : lo < xs.length := by omega
    rw [List.range'_succ, List.drop_eq_getElem_cons hlo, List.take_succ_cons,
      List.filterMap_cons_some (List.getElem?_eq_getElem hlo), ih (lo + 1) (by omega)]

/-- Consecutive ranks are a range. -/
theorem filter_range {n lo hi : ℕ} {p : ℕ → Prop} [DecidablePred p] (hle : lo ≤ hi) (hlt : hi < n)
    (hp : ∀ r, p r ↔ lo ≤ r ∧ r ≤ hi) :
    (List.range n).filter (fun r => p r) = List.range' lo (hi - lo + 1) := by
  have hsplit : List.range n =
      List.range' 0 lo ++ (List.range' lo (hi - lo + 1) ++ List.range' (hi + 1) (n - hi - 1)) := by
    have hlast : hi + 1 = lo + (hi - lo + 1) := by omega
    have hall : n = lo + (hi - lo + 1 + (n - hi - 1)) := by omega
    nth_rewrite 1 [hlast, List.range'_append_1, List.range_eq_range', hall]
    rw [← List.range'_append_1, Nat.zero_add]
  have hbefore : (List.range' 0 lo).filter (fun r => p r) = [] := by
    refine List.filter_eq_nil_iff.mpr fun r hr => ?_
    rw [List.mem_range'_1] at hr
    simp only [hp, decide_eq_true_eq]
    omega
  have hinside : (List.range' lo (hi - lo + 1)).filter (fun r => p r) =
      List.range' lo (hi - lo + 1) := by
    refine List.filter_eq_self.mpr fun r hr => ?_
    rw [List.mem_range'_1] at hr
    simp only [hp, decide_eq_true_eq]
    omega
  have hafter : (List.range' (hi + 1) (n - hi - 1)).filter (fun r => p r) = [] := by
    refine List.filter_eq_nil_iff.mpr fun r hr => ?_
    rw [List.mem_range'_1] at hr
    simp only [hp, decide_eq_true_eq]
    omega
  rw [hsplit, List.filter_append, List.filter_append, hbefore, hinside, hafter, List.nil_append,
    List.append_nil]

/-- A window holds the elements at the positions between its bounds. -/
theorem rangeOf_eq_filter (xs : List α) (start stop : ℤ) : rangeOf xs start stop =
      ((List.range xs.length).filter fun r => Within xs.length start stop r).filterMap
        fun r => xs[r]? := by
  unfold rangeOf
  cases hclamp : clampRange xs.length start stop with
  | none =>
    have hnone := not_within_of_clampRange hclamp
    simp [hnone]
  | some w =>
    obtain ⟨lo, hi⟩ := w
    obtain ⟨hle, hlt, hwithin⟩ := within_of_clampRange hclamp
    rw [filter_range hle hlt hwithin, filterMap_range' xs _ _ (by omega)]

end Windows

namespace ZSet

open Wire FloatBits ByteMap StrictSort

/-- A total preorder of the scores other than NaN that the comparisons of floats agree with. -/
structure Consistent (le : UInt64 → UInt64 → Bool) : Prop where
  total : ∀ a b, isNaN a = false → isNaN b = false → le a b = true ∨ le b a = true
  lt_iff : ∀ a b, isNaN a = false → isNaN b = false →
    (ltBits a b = true ↔ le a b = true ∧ le b a = false)

variable {le : UInt64 → UInt64 → Bool} {a b : UInt64}

section

variable (h : Consistent le)
include h

theorem Consistent.le_iff (ha : isNaN a = false) (hb : isNaN b = false) :
    le a b = true ↔ ordKey a ≤ ordKey b := by
  have hlt : ordKey b < ordKey a ↔ le b a = true ∧ le a b = false := by
    rw [← h.lt_iff b a hb ha]
    simp [ltBits, ha, hb]
  rw [← Int.not_lt, hlt]
  constructor
  · rintro hle ⟨-, hnot⟩
    exact absurd (hle.symm.trans hnot) (by simp)
  · intro hnot
    rcases h.total a b ha hb with hle | hge
    · exact hle
    · by_contra hle
      exact hnot ⟨hge, Bool.eq_false_iff.mpr hle⟩

theorem Consistent.ltBits_eq (ha : isNaN a = false) (hb : isNaN b = false) :
    ltBits a b = !le b a := by
  rw [Bool.eq_iff_iff, Bool.not_eq_true', Bool.eq_false_iff, Ne, h.le_iff hb ha]
  simp [ltBits, ha, hb]

/-- By score, then by the bytes of the member. -/
def Precedes (le : UInt64 → UInt64 → Bool) (a b : Bytes × UInt64) : Prop :=
  le a.2 b.2 = true ∧ (le b.2 a.2 = true → compare a.1 b.1 = .lt)

theorem precedes_iff {a b : Bytes × UInt64} (ha : isNaN a.2 = false)
    (hb : isNaN b.2 = false) : Precedes le a b ↔ less a b = true := by
  rw [less_iff ha hb, Precedes, h.le_iff ha hb, h.le_iff hb ha]
  constructor
  · rintro ⟨hle, hname⟩
    by_cases heq : ordKey a.2 = ordKey b.2
    · exact .inr ⟨heq, hname heq.ge⟩
    · exact .inl (by omega)
  · rintro (hlt | ⟨heq, hname⟩)
    · exact ⟨hlt.le, fun hge => by omega⟩
    · exact ⟨heq.le, fun _ => hname⟩

/-- The loop skips what is below and leaves at the first score above, behind which there is
nothing but higher scores. -/
theorem go_eq_filter {min max : UInt64} (hmin : isNaN min = false)
    (hmax : isNaN max = false) {out : List (Bytes × UInt64)} (hout : ∀ e ∈ out, isNaN e.2 = false)
    (hsorted : out.Pairwise fun a b => less a b = true) :
    rangeByScore.go min max out = out.filter fun e => le min e.2 && le e.2 max := by
  induction out with
  | nil => rfl
  | cons e out ih =>
    obtain ⟨he, hrest⟩ := List.forall_mem_cons.mp hout
    obtain ⟨hfirst, htail⟩ := List.pairwise_cons.mp hsorted
    unfold rangeByScore.go
    rw [ih hrest htail, h.ltBits_eq he hmin, h.ltBits_eq hmax he]
    cases hlow : le min e.2 with
    | false => simp [hlow]
    | true =>
      cases hhigh : le e.2 max with
      | true => simp [hlow, hhigh]
      | false =>
        have hnone : ∀ a ∈ e :: out, ¬ (le min a.2 && le a.2 max) = true := by
          rintro a ha hboth
          have hle := (Bool.and_eq_true_iff.mp hboth).2
          rw [h.le_iff (hout a ha) hmax] at hle
          have hkey : ordKey e.2 ≤ ordKey a.2 := by
            rcases List.mem_cons.mp ha with rfl | ha
            · exact Int.le_refl _
            · rcases (less_iff he (hrest a ha)).mp (hfirst a ha) with hlt | ⟨heq, -⟩
              · exact hlt.le
              · exact heq.le
          rw [Bool.eq_false_iff, Ne, h.le_iff he hmax] at hhigh
          exact hhigh (hkey.trans hle)
        rw [List.filter_eq_nil_iff.mpr hnone]
        simp

end

/-- There is one arrangement of the members by score and member bytes. Whatever the order in
which the map is gone through and whatever the sort does, a query by rank returns the ranks of
it between its bounds and a query by score what lies between its bounds. Sets with the same
scores answer alike. -/
theorem zset_queries (le : UInt64 → UInt64 → Bool) (hle : Consistent le) (z : Scores)
    (hz : Ordered z) :
    ∃ sorted : List (Bytes × UInt64),
      (∀ out, out = sorted ↔ out.Perm z.toList ∧ out.Pairwise (Precedes le)) ∧
      (∀ out, Sorts less z.toList out →
        (∀ start stop, rangeOf out start stop =
          ((List.range sorted.length).filter fun r => Within sorted.length start stop r).filterMap
            fun r => sorted[r]?) ∧
        ∀ min max, isNaN min = false → isNaN max = false →
          rangeByScore.go min max out = sorted.filter fun e => le min e.2 && le e.2 max) ∧
      Sorts less z.toList (ordered z) ∧
      ∀ z', (∀ member, score z' member = score z member) →
        (∀ start stop, range z' start stop = rangeOf sorted start stop) ∧
        ∀ min max, rangeByScore z' min max = rangeByScore.go min max sorted := by
  have hmem : ∀ out : List (Bytes × UInt64), out.Perm z.toList → ∀ e ∈ out, isNaN e.2 = false :=
    fun out hperm e he => hz e (hperm.mem_iff.mp he)
  refine ⟨ordered z, fun out => ?_, fun out hout => ?_, hz.sorts, fun z' hsame => ?_⟩
  · constructor
    · rintro rfl
      refine ⟨ordered_perm z, hz.pairwise.imp_of_mem fun ha hb hab => ?_⟩
      exact (precedes_iff hle (hmem _ (ordered_perm z) _ ha) (hmem _ (ordered_perm z) _ hb)).mpr hab
    · rintro ⟨hperm, hpair⟩
      refine eq_of_perm orders_less (hmem out hperm) (hperm.trans (ordered_perm z).symm) ?_
        hz.pairwise
      exact hpair.imp_of_mem fun ha hb hab =>
        (precedes_iff hle (hmem out hperm _ ha) (hmem out hperm _ hb)).mp hab
  · rw [hz.eq_ordered hout]
    exact ⟨rangeOf_eq_filter _, fun min max hmin hmax =>
      go_eq_filter hle hmin hmax (hmem _ (ordered_perm z)) hz.pairwise⟩
  · obtain rfl : z' = z := Std.ExtTreeMap.ext_getElem? hsame
    exact ⟨fun _ _ => rfl, fun _ _ => rfl⟩

theorem consistent_leBits : Consistent leBits where
  total a b ha hb := by
    simp only [leBits, ha, hb, Bool.not_false, Bool.true_and, decide_eq_true_eq]
    omega
  lt_iff a b ha hb := by
    simp only [leBits, ltBits, ha, hb, Bool.not_false, Bool.true_and, decide_eq_true_eq,
      decide_eq_false_iff_not]
    omega

def zeros : Scores :=
  ((new.insert [2] 0).insert [1] 0x8000000000000000).insert [3] 0x3FF0000000000000

/-- Members scored with both zeros. -/
theorem zset_queries_zeros : ∃ sorted : List (Bytes × UInt64),
    (sorted.Perm zeros.toList ∧ sorted.Pairwise (Precedes leBits)) ∧
      range zeros 0 (-2) = rangeOf sorted 0 (-2) ∧
      range zeros 0 (-2) = [([1], 0x8000000000000000), ([2], 0)] ∧
      rangeByScore zeros 0 0 = range zeros 0 (-2) := by
  obtain ⟨sorted, hsorted, -, -, hsame⟩ :=
    zset_queries leBits consistent_leBits zeros (by unfold Ordered; decide +kernel)
  exact ⟨sorted, (hsorted sorted).mp rfl, (hsame zeros fun _ => rfl).1 0 (-2), by decide +kernel,
    by decide +kernel⟩

end ZSet

end Supercache
