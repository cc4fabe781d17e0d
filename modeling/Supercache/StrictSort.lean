import Mathlib

/-!
Sorting by a comparison that may leave some elements unordered. On a list any two elements of
which are ordered, the sorted list is the only rearrangement in which every element precedes all
that come after it. So it does not depend on the order the elements are found in.
-/
namespace Supercache.StrictSort

variable {α : Type*} {less : α → α → Bool} {P : α → Prop}

structure Orders (less : α → α → Bool) (P : α → Prop) : Prop where
  irrefl : ∀ a, P a → less a a = false
  trans : ∀ a b c, P a → P b → P c → less a b = true → less b c = true → less a c = true

def Comparable (less : α → α → Bool) (xs : List α) : Prop :=
  xs.Pairwise fun a b => less a b = true ∨ less b a = true

def sort (less : α → α → Bool) (xs : List α) : List α :=
  xs.insertionSort fun a b => less b a = false

theorem sort_perm (less : α → α → Bool) (xs : List α) : (sort less xs).Perm xs :=
  List.perm_insertionSort _ _

/-- An outcome of sorting: a rearrangement in which no two elements stand the wrong way
round. -/
structure Sorts (less : α → α → Bool) (xs ys : List α) : Prop where
  perm : ys.Perm xs
  ordered : ys.Pairwise fun a b => less b a = false

theorem Comparable.perm {xs ys : List α} (h : Comparable less xs) (hperm : xs.Perm ys) :
    Comparable less ys :=
  hperm.pairwise h fun hab => hab.symm

theorem Orders.asymm (h : Orders less P) {a b : α} (ha : P a) (hb : P b) (hab : less a b = true) :
    less b a = false := by
  refine Bool.eq_false_iff.mpr fun hba => ?_
  have haa := h.trans a b a ha hb ha hab hba
  exact absurd (haa.symm.trans (h.irrefl a ha)) (by simp)

section Sorted

variable (h : Orders less P)

include h

variable {xs ys : List α}

/-- Inserting keeps the list sorted. -/
theorem pairwise_orderedInsert {a : α} (hP : ∀ b ∈ a :: xs, P b)
    (hcmp : ∀ b ∈ xs, less a b = true ∨ less b a = true)
    (hxs : xs.Pairwise fun a b => less a b = true) :
    (xs.orderedInsert (fun a b => less b a = false) a).Pairwise fun a b => less a b = true := by
  induction xs with
  | nil => simp
  | cons b xs ih =>
    obtain ⟨hb, hrest⟩ := List.pairwise_cons.mp hxs
    rw [List.orderedInsert_cons]
    by_cases hba : less b a = false
    · rw [if_pos hba]
      have hab : less a b = true := by
        rcases hcmp b List.mem_cons_self with hab | hba'
        · exact hab
        · exact absurd (hba'.symm.trans hba) (by simp)
      refine List.pairwise_cons.mpr ⟨fun c hc => ?_, hxs⟩
      rcases List.mem_cons.mp hc with rfl | hc
      · exact hab
      · exact h.trans a b c (hP a (by simp)) (hP b (by simp)) (hP c (by simp [hc])) hab (hb c hc)
    · rw [if_neg hba]
      rw [Bool.not_eq_false] at hba
      refine List.pairwise_cons.mpr ⟨fun c hc => ?_, ?_⟩
      · rcases (List.mem_orderedInsert _).mp hc with rfl | hc
        · exact hba
        · exact hb c hc
      · exact ih (fun c hc => hP c (by simp at hc ⊢; tauto))
          (fun c hc => hcmp c (List.mem_cons_of_mem b hc)) hrest

section

variable (hP : ∀ a ∈ xs, P a)
include hP

/-- Every element precedes all that come after it. -/
theorem pairwise_sort (hcmp : Comparable less xs) :
    (sort less xs).Pairwise fun a b => less a b = true := by
  induction xs with
  | nil => exact List.Pairwise.nil
  | cons a xs ih =>
    obtain ⟨ha, hrest⟩ := List.pairwise_cons.mp hcmp
    have hmem : ∀ b, b ∈ sort less xs ↔ b ∈ xs := fun b => (sort_perm less xs).mem_iff
    refine pairwise_orderedInsert h (fun b hb => hP b ?_) (fun b hb => ha b ((hmem b).mp hb))
      (ih (fun b hb => hP b (List.mem_cons_of_mem a hb)) hrest)
    exact ((sort_perm less xs).cons a).mem_iff.mp hb

theorem eq_of_perm (hperm : xs.Perm ys)
    (hxs : xs.Pairwise fun a b => less a b = true) (hys : ys.Pairwise fun a b => less a b = true) :
    xs = ys := by
  refine hperm.eq_of_pairwise (fun a b ha hb hab hba => ?_) hxs hys
  have hPb := hP b (hperm.mem_iff.mpr hb)
  exact absurd (hba.symm.trans (h.asymm (hP a ha) hPb hab)) (by simp)

/-- The order in which the elements are found does not matter. -/
theorem sort_eq_of_perm (hcmp : Comparable less xs) (hperm : xs.Perm ys) :
    sort less xs = sort less ys := by
  have hPy : ∀ a ∈ ys, P a := fun a ha => hP a (hperm.mem_iff.mpr ha)
  refine eq_of_perm h (fun a ha => hP a ((sort_perm less xs).mem_iff.mp ha)) ?_
    (pairwise_sort h hP hcmp) (pairwise_sort h hPy (hcmp.perm hperm))
  exact (sort_perm less xs).trans (hperm.trans (sort_perm less ys).symm)

theorem sorts_sort (hcmp : Comparable less xs) :
    Sorts less xs (sort less xs) where
  perm := sort_perm less xs
  ordered := (pairwise_sort h hP hcmp).imp_of_mem fun ha hb hab =>
    h.asymm (hP _ ((sort_perm less xs).mem_iff.mp ha))
      (hP _ ((sort_perm less xs).mem_iff.mp hb)) hab

end

/-- Whatever a sort does, there is only one outcome. -/
theorem Sorts.eq_sort (hys : Sorts less xs ys) (hP : ∀ a ∈ xs, P a) (hcmp : Comparable less xs) :
    ys = sort less xs := by
  have hPy : ∀ a ∈ ys, P a := fun a ha => hP a (hys.perm.mem_iff.mp ha)
  have hless : ys.Pairwise fun a b => less a b = true := by
    refine ((hcmp.perm hys.perm.symm).and hys.ordered).imp fun hab => ?_
    rcases hab.1 with hlt | hgt
    · exact hlt
    · exact absurd (hgt.symm.trans hab.2) (by simp)
  exact eq_of_perm h hPy (hys.perm.trans (sort_perm less xs).symm) hless
    (pairwise_sort h hP hcmp)

/-- A scan that keeps the lesser of two finds an element that none precedes. -/
theorem foldl_least (xs : List α) (m : α) (hP : ∀ a ∈ m :: xs, P a)
    (hcmp : ∀ a ∈ m :: xs, ∀ b ∈ m :: xs, a ≠ b → less a b = true ∨ less b a = true) :
    xs.foldl (fun m x => if less x m then x else m) m ∈ m :: xs ∧
      ∀ a ∈ m :: xs, less a (xs.foldl (fun m x => if less x m then x else m) m) = false := by
  induction xs generalizing m with
  | nil => simp [h.irrefl m (hP m (by simp))]
  | cons x xs ih =>
    rw [List.foldl_cons]
    have hPm := hP m (by simp)
    have hPx := hP x (by simp)
    by_cases hless : less x m = true
    · have hsub : ∀ a ∈ x :: xs, a ∈ m :: x :: xs := fun a ha => List.mem_cons_of_mem m ha
      rw [if_pos hless]
      obtain ⟨hmem, hmin⟩ := ih x (fun a ha => hP a (hsub a ha))
        fun a ha b hb => hcmp a (hsub a ha) b (hsub b hb)
      refine ⟨hsub _ hmem, List.forall_mem_cons.mpr ⟨?_, hmin⟩⟩
      -- if `m` preceded the one that is found, then so would `x`
      refine Bool.eq_false_iff.mpr fun hlt => ?_
      have hlt' := h.trans x m _ hPx hPm (hP _ (hsub _ hmem)) hless hlt
      exact absurd (hlt'.symm.trans (hmin x (by simp))) (by simp)
    · have hsub : ∀ a ∈ m :: xs, a ∈ m :: x :: xs := fun a ha => by
        rcases List.mem_cons.mp ha with rfl | ha
        · exact List.mem_cons_self
        · exact List.mem_cons_of_mem m (List.mem_cons_of_mem x ha)
      rw [if_neg hless]
      obtain ⟨hmem, hmin⟩ := ih m (fun a ha => hP a (hsub a ha))
        fun a ha b hb => hcmp a (hsub a ha) b (hsub b hb)
      obtain ⟨hm, hrest⟩ := List.forall_mem_cons.mp hmin
      refine ⟨hsub _ hmem, List.forall_mem_cons.mpr ⟨hm, List.forall_mem_cons.mpr ⟨?_, hrest⟩⟩⟩
      -- the one that is found is `m` or precedes it
      generalize xs.foldl (fun m x => if less x m then x else m) m = r at hmem hm
      by_cases hr : r = m
      · rw [hr]
        exact Bool.eq_false_iff.mpr hless
      · rcases hcmp r (hsub r hmem) m (by simp) hr with hrm | hmr
        · refine Bool.eq_false_iff.mpr fun hxr => hless ?_
          exact h.trans x r m hPx (hP r (hsub r hmem)) hPm hxr hrm
        · exact absurd (hmr.symm.trans hm) (by simp)

end Sorted

section Lex

variable {K N : Type*} [LinearOrder K] [Ord N] [Std.TransOrd N] [Std.LawfulEqOrd N]
  {key : α → K} {name : α → N}
  (hless : ∀ a b, P a → P b →
    (less a b = true ↔ key a < key b ∨ key a = key b ∧ compare (name a) (name b) = .lt))

include hless

omit [Std.LawfulEqOrd N] in
/-- By a key, and by name where the keys are the same. -/
theorem orders_of_lex : Orders less P where
  irrefl a ha := by
    refine Bool.eq_false_iff.mpr fun hlt => ?_
    rcases (hless a a ha ha).mp hlt with hkey | ⟨-, hname⟩
    · exact lt_irrefl _ hkey
    · have hself : compare (name a) (name a) = .eq := Std.ReflCmp.compare_self
      exact absurd (hself.symm.trans hname) (by decide)
  trans a b c ha hb hc hab hbc := by
    refine (hless a c ha hc).mpr ?_
    rcases (hless a b ha hb).mp hab with hkey | ⟨hkey, hname⟩
    · rcases (hless b c hb hc).mp hbc with hkey' | ⟨hkey', -⟩
      · exact .inl (hkey.trans hkey')
      · exact .inl (hkey' ▸ hkey)
    · rcases (hless b c hb hc).mp hbc with hkey' | ⟨hkey', hname'⟩
      · exact .inl (hkey ▸ hkey')
      · exact .inr ⟨hkey.trans hkey', Std.TransCmp.lt_trans hname hname'⟩

theorem less_or_less {a b : α} (ha : P a) (hb : P b) (hne : name a ≠ name b) :
    less a b = true ∨ less b a = true := by
  rw [hless a b ha hb, hless b a hb ha]
  rcases lt_trichotomy (key a) (key b) with hlt | heq | hgt
  · exact .inl (.inl hlt)
  · cases hcmp : compare (name a) (name b) with
    | lt => exact .inl (.inr ⟨heq, rfl⟩)
    | eq => exact absurd (Std.LawfulEqCmp.eq_of_compare hcmp) hne
    | gt => exact .inr (.inr ⟨heq.symm, Std.OrientedCmp.lt_of_gt hcmp⟩)
  · exact .inr (.inl hgt)

/-- Elements with names of their own are ordered one way or the other. -/
theorem comparable_of_lex {xs : List α} (hP : ∀ a ∈ xs, P a) (hnames : (xs.map name).Nodup) :
    Comparable less xs := by
  rw [List.Nodup, List.pairwise_map] at hnames
  exact hnames.imp_of_mem fun ha hb hne => less_or_less hless (hP _ ha) (hP _ hb) hne

end Lex

end Supercache.StrictSort
