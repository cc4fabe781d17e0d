import Mathlib

/-!
The Count-Min sketch over any kind of item: a grid of counts in which every item has one cell
of each row. An amount is added to all cells of its item. So every cell of an item counts at
least what was added for the item, and every row counts all that was added at all.
-/
namespace Supercache.CountMin

variable {α D W : Type*} (h : α → D → W)

abbrev Grid (D W : Type*) := D → W → ℕ

def add [DecidableEq W] (x : α) (n : ℕ) (g : Grid D W) : Grid D W := fun r c =>
  g r c + if h x r = c then n else 0

section Query

variable [Fintype D] [Nonempty D] (g : Grid D W)

def query (x : α) : ℕ := Finset.univ.inf' Finset.univ_nonempty fun r => g r (h x r)

theorem query_le (x : α) (r : D) : query h g x ≤ g r (h x r) := Finset.inf'_le _ (Finset.mem_univ r)

theorem le_query {n : ℕ} {x : α} (hn : ∀ r, n ≤ g r (h x r)) : n ≤ query h g x :=
  Finset.le_inf' _ _ fun r _ => hn r

theorem exists_query (x : α) : ∃ r, query h g x = g r (h x r) := by
  obtain ⟨r, -, hr⟩ := Finset.exists_mem_eq_inf' Finset.univ_nonempty fun r : D => g r (h x r)
  exact ⟨r, hr⟩

variable [DecidableEq W]

theorem query_add_self (x : α) (n : ℕ) : query h (add h x n g) x = query h g x + n := by
  refine le_antisymm ?_ (le_query h _ fun r => ?_)
  · obtain ⟨r, hr⟩ := exists_query h g x
    rw [hr]
    exact (query_le h _ x r).trans_eq (by simp [add])
  · simpa [add] using query_le h g x r

theorem query_le_query_add (x y : α) (n : ℕ) : query h g y ≤ query h (add h x n g) y :=
  le_query h _ fun r => (query_le h g y r).trans (Nat.le_add_right _ _)

end Query

variable [DecidableEq α]

def seen (done : List (α × ℕ)) (x : α) : ℕ := ((done.filter fun a => a.1 = x).map Prod.snd).sum

theorem seen_snoc (done : List (α × ℕ)) (x y : α) (n : ℕ) :
    seen (done ++ [(x, n)]) y = seen done y + if x = y then n else 0 := by
  unfold seen
  rw [List.filter_append, List.map_append, List.sum_append]
  by_cases hxy : x = y <;> simp [hxy]

variable [Fintype W]

structure Counts (done : List (α × ℕ)) (g : Grid D W) : Prop where
  low : ∀ x r, seen done x ≤ g r (h x r)
  rows : ∀ r, ∑ c, g r c = (done.map Prod.snd).sum

namespace Counts

variable {h} {done : List (α × ℕ)} {g : Grid D W}

theorem empty : Counts h [] (fun _ _ => 0) where
  low _ _ := Nat.zero_le _
  rows _ := by simp

theorem seen_le_query [Fintype D] [Nonempty D] (hg : Counts h done g) (x : α) :
    seen done x ≤ query h g x :=
  le_query h g fun r => hg.low x r

/-- An amount that is added to the cells of its item is counted in every row. -/
theorem add [DecidableEq W] (hg : Counts h done g) (x : α) (n : ℕ) :
    Counts h (done ++ [(x, n)]) (add h x n g) where
  low y r := by
    have hlow := hg.low y r
    rw [seen_snoc, CountMin.add]
    by_cases hxy : x = y
    · subst hxy
      simpa using hlow
    · rw [if_neg hxy]
      omega
  rows r := by
    simp only [CountMin.add, Finset.sum_add_distrib, hg.rows r, List.map_append, List.sum_append,
      Finset.sum_ite_eq, Finset.mem_univ, if_true, List.map_cons, List.map_nil, List.sum_singleton]

end Counts

end Supercache.CountMin
