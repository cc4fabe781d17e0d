import Mathlib

/-!
The Space-Saving algorithm over any kind of item. A chart of `k` rows counts the items it tracks.
An item without a row takes a free one, or the row with the least count, which goes on counting
from there. So a count is too high by the least count of a full chart at most.
-/
namespace Supercache.SpaceSaving

variable {α : Type*}

abbrev Chart (α : Type*) := Multiset (α × ℕ)

def items (c : Chart α) : Multiset α := c.map Prod.fst

def total (c : Chart α) : ℕ := (c.map Prod.snd).sum

noncomputable def least (c : Chart α) : ℕ := sInf {n | ∃ e ∈ c, e.2 = n}

noncomputable def slack (k : ℕ) (c : Chart α) : ℕ := if c.card < k then 0 else least c

variable {c : Chart α} {k : ℕ}

theorem least_le {e : α × ℕ} (he : e ∈ c) : least c ≤ e.2 := Nat.sInf_le ⟨e, he, rfl⟩

theorem exists_least (hne : c ≠ 0) : ∃ e ∈ c, e.2 = least c := by
  obtain ⟨e, he⟩ := Multiset.exists_mem_of_ne_zero hne
  have hset : {n | ∃ e ∈ c, e.2 = n}.Nonempty := ⟨e.2, e, he, rfl⟩
  exact Nat.sInf_mem hset

theorem le_least (hne : c ≠ 0) {n : ℕ} (h : ∀ e ∈ c, n ≤ e.2) : n ≤ least c := by
  obtain ⟨e, he, heq⟩ := exists_least hne
  rw [← heq]
  exact h e he

theorem slack_of_full (h : k ≤ c.card) : slack k c = least c :=
  if_neg (Nat.not_lt.mpr h)

theorem slack_of_room (h : c.card < k) : slack k c = 0 := if_pos h

theorem card_mul_least_le (c : Chart α) : c.card * least c ≤ total c := by
  have h := Multiset.card_nsmul_le_sum (s := c.map Prod.snd) (a := least c) fun n hn => by
    obtain ⟨e, he, rfl⟩ := Multiset.mem_map.mp hn
    exact least_le he
  simpa [total] using h

inductive Observes (k : ℕ) (x : α) : Chart α → Chart α → Prop
  | hit (n : ℕ) (rest : Chart α) : Observes k x ((x, n) ::ₘ rest) ((x, n + 1) ::ₘ rest)
  | grow (c : Chart α) (hnew : x ∉ items c) (hroom : c.card < k) : Observes k x c ((x, 1) ::ₘ c)
  | replace (old : α × ℕ) (rest : Chart α) (hnew : x ∉ items (old ::ₘ rest))
    (hfull : k ≤ (old ::ₘ rest).card) (hleast : ∀ e ∈ rest, old.2 ≤ e.2) :
    Observes k x (old ::ₘ rest) ((x, old.2 + 1) ::ₘ rest)

namespace Observes

variable {k : ℕ} {x : α} {c c' : Chart α}

variable (h : Observes k x c c')
include h

theorem total_eq : total c' = total c + 1 := by
  cases h with
  | hit n rest =>
    simp only [total, Multiset.map_cons, Multiset.sum_cons]
    omega
  | grow _ hnew hroom =>
    simp only [total, Multiset.map_cons, Multiset.sum_cons]
    omega
  | replace old rest hnew hfull hleast =>
    simp only [total, Multiset.map_cons, Multiset.sum_cons]
    omega

theorem card_le (hbound : c.card ≤ k) : c'.card ≤ k := by
  cases h with
  | hit n rest => simpa using hbound
  | grow _ hnew hroom => simpa using hroom
  | replace old rest hnew hfull hleast => simpa using hbound

theorem nodup (hnodup : (items c).Nodup) : (items c').Nodup := by
  cases h with
  | hit n rest => simpa [items] using hnodup
  | grow _ hnew hroom =>
    simp only [items, Multiset.map_cons, Multiset.nodup_cons]
    exact ⟨hnew, hnodup⟩
  | replace old rest hnew hfull hleast =>
    simp only [items, Multiset.map_cons, Multiset.nodup_cons, Multiset.mem_cons, not_or]
      at hnew hnodup ⊢
    exact ⟨hnew.2, hnodup.2⟩

/-- The least count never falls. -/
theorem slack_mono : slack k c ≤ slack k c' := by
  cases h with
  | hit n rest =>
    by_cases hroom : ((x, n) ::ₘ rest).card < k
    · rw [slack_of_room hroom]
      exact Nat.zero_le _
    · rw [Nat.not_lt] at hroom
      rw [slack_of_full hroom, slack_of_full (by simpa using hroom)]
      refine le_least (Multiset.cons_ne_zero) fun e he => ?_
      rcases Multiset.mem_cons.mp he with rfl | he
      · exact (least_le (Multiset.mem_cons_self (x, n) rest)).trans (Nat.le_succ n)
      · exact least_le (Multiset.mem_cons_of_mem he)
  | grow _ hnew hroom =>
    rw [slack_of_room hroom]
    exact Nat.zero_le _
  | replace old rest hnew hfull hleast =>
    rw [slack_of_full hfull, slack_of_full (by simpa using hfull)]
    refine le_least (Multiset.cons_ne_zero) fun e he => ?_
    rcases Multiset.mem_cons.mp he with rfl | he
    · exact (least_le (Multiset.mem_cons_self old rest)).trans (Nat.le_succ _)
    · exact least_le (Multiset.mem_cons_of_mem he)

end Observes

variable [BEq α]

structure Charts (k : ℕ) (xs : List α) (c : Chart α) : Prop where
  bound : c.card ≤ k
  nodup : (items c).Nodup
  total : total c = xs.length
  low : ∀ e ∈ c, xs.count e.1 ≤ e.2
  high : ∀ e ∈ c, e.2 ≤ xs.count e.1 + slack k c
  untracked : ∀ x ∉ items c, xs.count x ≤ slack k c

namespace Charts

variable {k : ℕ} {xs : List α} {c c' : Chart α} {x : α}

theorem empty (k : ℕ) : Charts k ([] : List α) 0 where
  bound := Nat.zero_le k
  nodup := Multiset.nodup_zero
  total := rfl
  low _ he := absurd he (Multiset.notMem_zero _)
  high _ he := absurd he (Multiset.notMem_zero _)
  untracked _ _ := Nat.zero_le _

/-- An item seen more often than its share has a row. -/
theorem heavy (h : Charts k xs c) (hx : xs.length < k * xs.count x) : x ∈ items c := by
  by_contra hnew
  have hcount := h.untracked x hnew
  by_cases hroom : c.card < k
  · rw [slack_of_room hroom] at hcount
    rw [Nat.le_zero.mp hcount, Nat.mul_zero] at hx
    exact absurd hx (Nat.not_lt_zero _)
  · have hcard : c.card = k := le_antisymm h.bound (Nat.not_lt.mp hroom)
    rw [slack_of_full (Nat.not_lt.mp hroom)] at hcount
    have hsum := card_mul_least_le c
    rw [h.total, hcard] at hsum
    exact absurd (hsum.trans_lt hx) (Nat.not_lt.mpr (Nat.mul_le_mul_left k hcount))

theorem count_snoc (xs : List α) (x y : α) :
    (xs ++ [x]).count y = xs.count y + if x == y then 1 else 0 := by
  rw [List.count_append, List.count_singleton]

variable [LawfulBEq α]

section Step

variable (h : Charts k xs c) (hslack : slack k c ≤ slack k c')

include h hslack

/-- A row that is not the item's own keeps its bounds, since the slack never falls. -/
theorem keep {e : α × ℕ} (he : e ∈ c) (hne : x ≠ e.1) :
    (xs ++ [x]).count e.1 ≤ e.2 ∧ e.2 ≤ (xs ++ [x]).count e.1 + slack k c' := by
  have hlow := h.low e he
  have hhigh := h.high e he
  rw [count_snoc, if_neg (by simpa using hne)]
  omega

theorem keep_untracked {y : α} (hy : y ∉ items c) (hne : x ≠ y) :
    (xs ++ [x]).count y ≤ slack k c' := by
  rw [count_snoc, if_neg (by simpa using hne)]
  exact (h.untracked y hy).trans hslack

end Step

variable (h : Charts k xs c) (hstep : Observes k x c c')
include h hstep

/-- No count is low, and none high by more than the slack. -/
theorem bounds_of_observes :
    ∀ e ∈ c', (xs ++ [x]).count e.1 ≤ e.2 ∧ e.2 ≤ (xs ++ [x]).count e.1 + slack k c' := by
  have hslack := hstep.slack_mono
  have hnodup := h.nodup
  cases hstep with
  | hit n rest =>
    rw [items, Multiset.map_cons, Multiset.nodup_cons] at hnodup
    refine Multiset.forall_mem_cons.mpr ⟨?_, fun e he => ?_⟩
    · have hlow := h.low (x, n) (Multiset.mem_cons_self _ _)
      have hhigh := h.high (x, n) (Multiset.mem_cons_self _ _)
      simp only [count_snoc, beq_self_eq_true, if_true] at hlow hhigh ⊢
      omega
    · refine h.keep hslack (Multiset.mem_cons_of_mem he) fun heq => hnodup.1 ?_
      change x ∈ rest.map Prod.fst
      rw [heq]
      exact Multiset.mem_map_of_mem Prod.fst he
  | grow _ hnew hroom =>
    refine Multiset.forall_mem_cons.mpr ⟨?_, fun e he => ?_⟩
    · -- with rows to spare an item without one was never seen
      have hzero := h.untracked x hnew
      rw [slack_of_room hroom] at hzero
      simp only [count_snoc, beq_self_eq_true, if_true]
      omega
    · refine h.keep hslack he fun heq => hnew ?_
      rw [heq]
      exact Multiset.mem_map_of_mem Prod.fst he
  | replace old rest hnew hfull hleast =>
    have hmin : old.2 = slack k (old ::ₘ rest) := by
      rw [slack_of_full hfull]
      refine le_antisymm (le_least Multiset.cons_ne_zero ?_) (least_le (Multiset.mem_cons_self _ _))
      exact Multiset.forall_mem_cons.mpr ⟨le_rfl, hleast⟩
    refine Multiset.forall_mem_cons.mpr ⟨?_, fun e he => ?_⟩
    · have hseen := h.untracked x hnew
      simp only [count_snoc, beq_self_eq_true, if_true]
      omega
    · refine h.keep hslack (Multiset.mem_cons_of_mem he) fun heq => hnew ?_
      rw [heq]
      exact Multiset.mem_map_of_mem Prod.fst (Multiset.mem_cons_of_mem he)

/-- What has no row was seen no more than the slack. -/
theorem untracked_of_observes :
    ∀ y ∉ items c', (xs ++ [x]).count y ≤ slack k c' := by
  have hslack := hstep.slack_mono
  intro y hy
  cases hstep with
  | hit n rest =>
    have hne : x ≠ y := fun heq => hy (by simp [items, heq])
    exact h.keep_untracked hslack (by simpa [items] using hy) hne
  | grow _ hnew hroom =>
    rw [items, Multiset.map_cons, Multiset.mem_cons, not_or] at hy
    exact h.keep_untracked hslack hy.2 (Ne.symm hy.1)
  | replace old rest hnew hfull hleast =>
    rw [items, Multiset.map_cons, Multiset.mem_cons, not_or] at hy
    by_cases hold : y = old.1
    · -- the row that was given away had the least count
      subst hold
      have hlow := h.low old (Multiset.mem_cons_self _ _)
      rw [count_snoc, if_neg (by simpa using Ne.symm hy.1)]
      refine hlow.trans ?_
      rw [slack_of_full (by simpa using hfull)]
      refine le_least Multiset.cons_ne_zero ?_
      exact Multiset.forall_mem_cons.mpr ⟨Nat.le_succ _, hleast⟩
    · refine h.keep_untracked hslack ?_ (Ne.symm hy.1)
      rw [items, Multiset.map_cons, Multiset.mem_cons, not_or]
      exact ⟨hold, hy.2⟩

/-- What the chart says stays right. -/
theorem observe : Charts k (xs ++ [x]) c' where
  bound := hstep.card_le h.bound
  nodup := hstep.nodup h.nodup
  total := by rw [hstep.total_eq, h.total, List.length_append, List.length_singleton]
  low e he := (h.bounds_of_observes hstep e he).1
  high e he := (h.bounds_of_observes hstep e he).2
  untracked := h.untracked_of_observes hstep

end Charts

end Supercache.SpaceSaving
