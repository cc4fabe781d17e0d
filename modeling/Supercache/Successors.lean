import Mathlib.Data.List.Rotate
import Mathlib.Data.List.GetD
import Mathlib.Order.Lattice

/-!
Walking round a sorted list from the first element that is not below a mark. A
binary search finds the place to start. The labels met on the way, each where
it is met first, depend only on which elements there are, not on how often each
is repeated; a label left out leaves the order of the others as it is.
-/
namespace Supercache.Successors

section FirstSeen

variable {α β : Type} [BEq α] [BEq β]

/-- Dropping repetitions takes the head and goes on without its copies. -/
@[elab_as_elim]
theorem eraseDups_induction {motive : List α → Prop} (nil : motive [])
    (cons : ∀ a l, motive (l.filter fun b => !b == a) → motive (a :: l)) (l : List α) :
    motive l := by
  induction hlen : l.length using Nat.strong_induction_on generalizing l with
  | _ n ih =>
    cases l with
    | nil => exact nil
    | cons a l =>
      have hle := List.length_filter_le (fun b => !b == a) l
      rw [List.length_cons] at hlen
      exact cons a l (ih _ (by omega) (l.filter fun b => !b == a) rfl)

theorem eraseDups_sublist (l : List α) : l.eraseDups.Sublist l := by
  induction l using eraseDups_induction with
  | nil => simp
  | cons a l ih =>
    rw [List.eraseDups_cons]
    exact List.Sublist.cons_cons a (ih.trans List.filter_sublist)

variable [LawfulBEq α] [LawfulBEq β]

theorem nodup_eraseDups (l : List α) : l.eraseDups.Nodup := by
  induction l using eraseDups_induction with
  | nil => simp
  | cons a l ih =>
    rw [List.eraseDups_cons, List.nodup_cons]
    exact ⟨by simp [List.mem_eraseDups], ih⟩

/-- Leaving elements out does not change where the others are met first. -/
theorem eraseDups_filter (p : α → Bool) (l : List α) :
    (l.filter p).eraseDups = l.eraseDups.filter p := by
  induction l using eraseDups_induction with
  | nil => simp
  | cons a l ih =>
    have hcomm : (l.filter p).filter (fun b => !b == a) =
        (l.filter fun b => !b == a).filter p := by
      simp only [List.filter_filter, Bool.and_comm]
    rw [List.eraseDups_cons]
    cases hp : p a with
    | true =>
      rw [List.filter_cons_of_pos hp, List.filter_cons_of_pos hp, List.eraseDups_cons, hcomm, ih]
    | false =>
      -- the element left out is none of those kept
      have hkept : (l.filter p).filter (fun b => !b == a) = l.filter p := by
        refine List.filter_eq_self.mpr fun b hb => ?_
        have hpb := (List.mem_filter.mp hb).2
        simp only [Bool.not_eq_true', beq_eq_false_iff_ne]
        exact fun hba => absurd (hba ▸ hpb) (by simp [hp])
      rw [List.filter_cons_of_neg (by simp [hp]), List.filter_cons_of_neg (by simp [hp]), ← ih,
        ← hcomm, hkept]

/-- Repeated elements add no label that was not met before. -/
theorem eraseDups_map_eraseDups (f : α → β) (l : List α) :
    (l.eraseDups.map f).eraseDups = (l.map f).eraseDups := by
  induction l using eraseDups_induction with
  | nil => simp
  | cons a l ih =>
    have hlabels : ((l.filter fun b => !b == a).map f).filter (fun c => !c == f a) =
        (l.map f).filter fun c => !c == f a := by
      rw [List.filter_map, List.filter_map, List.filter_filter]
      congr 1
      refine List.filter_congr fun b _ => ?_
      by_cases hba : b = a
      · simp [hba]
      · simp [hba]
    rw [List.eraseDups_cons, List.map_cons, List.map_cons, List.eraseDups_cons,
      List.eraseDups_cons, eraseDups_filter, ih, ← eraseDups_filter, hlabels]

/-- One element left out of a prefix moves its end by at most one place. -/
theorem filter_take_prefix {l : List α} (hl : l.Nodup) (x : α) (n : ℕ) :
    (l.take n).filter (· != x) <+: (l.filter (· != x)).take n ∧
      ((l.filter (· != x)).take n).length ≤ ((l.take n).filter (· != x)).length + 1 := by
  constructor
  · refine List.prefix_take_iff.mpr ⟨(List.take_prefix n l).filter _, ?_⟩
    exact (List.length_filter_le _ _).trans (List.length_take_le n l)
  · have hshort : ((l.filter (· != x)).take n).length ≤ (l.take n).length := by
      have hle := List.length_filter_le (· != x) l
      rw [List.length_take, List.length_take]
      omega
    have hone : (l.take n).length - 1 ≤ ((l.take n).erase x).length := List.le_length_erase
    rw [← (hl.sublist (List.take_sublist n l)).erase_eq_filter x]
    omega

end FirstSeen

section Search

def searchLoop (f : ℕ → Bool) : ℕ → ℕ → ℕ → ℕ
  | 0, i, _ => i
  | fuel + 1, i, j =>
    if i < j then
      let h := (i + j) / 2
      if !f h then searchLoop f fuel (h + 1) j else searchLoop f fuel i h
    else i

def search (n : ℕ) (f : ℕ → Bool) : ℕ := searchLoop f n 0 n

theorem searchLoop_le (f : ℕ → Bool) (fuel : ℕ) {i j : ℕ} (hij : i ≤ j) :
    searchLoop f fuel i j ≤ j := by
  induction fuel generalizing i j with
  | zero => exact hij
  | succ fuel ih =>
    unfold searchLoop
    split
    · simp only
      split
      · exact ih (by omega)
      · exact (ih (by omega)).trans (by omega)
    · exact hij

theorem search_le (n : ℕ) (f : ℕ → Bool) : search n f ≤ n := searchLoop_le f n (Nat.zero_le n)

/-- The result separates the indices at which `f` fails from those at which it holds. -/
theorem searchLoop_spec {f : ℕ → Bool} {n : ℕ}
    (hf : ∀ a b, a ≤ b → b < n → f a = true → f b = true) (fuel i j : ℕ) (hij : i ≤ j)
    (hj : j ≤ n) (hfuel : j - i ≤ fuel) (hlow : ∀ a < i, f a = false)
    (hhigh : ∀ a, j ≤ a → a < n → f a = true) :
    searchLoop f fuel i j ≤ n ∧ (∀ a < searchLoop f fuel i j, f a = false) ∧
      ∀ a, searchLoop f fuel i j ≤ a → a < n → f a = true := by
  induction fuel generalizing i j with
  | zero =>
    have heq : i = j := by omega
    subst heq
    exact ⟨hj, hlow, hhigh⟩
  | succ fuel ih =>
    unfold searchLoop
    by_cases hlt : i < j
    · have hmid : (i + j) / 2 < j := by omega
      have hmid' : i ≤ (i + j) / 2 := by omega
      rw [if_pos hlt]
      cases hfm : f ((i + j) / 2) with
      | false =>
        simp only [hfm, Bool.not_false, if_true]
        refine ih _ j (by omega) hj (by omega) (fun a ha => ?_) hhigh
        cases hfa : f a with
        | false => rfl
        | true => exact absurd (hf a ((i + j) / 2) (by omega) (by omega) hfa) (by simp [hfm])
      | true =>
        simp only [hfm, Bool.not_true, Bool.false_eq_true, if_false]
        exact ih i _ hmid' (by omega) (by omega) hlow
          fun a ha ha' => hf _ a ha ha' hfm
    · have heq : i = j := by omega
      subst heq
      rw [if_neg hlt]
      exact ⟨hj, hlow, hhigh⟩

end Search

section Clockwise

variable {κ : Type} [LinearOrder κ]

def clockwise (mark : κ) (keys : List κ) : List κ :=
  keys.filter (fun k => decide (mark ≤ k)) ++ keys.filter fun k => !decide (mark ≤ k)

theorem mem_clockwise {mark : κ} {keys : List κ} {k : κ} : k ∈ clockwise mark keys ↔ k ∈ keys := by
  simp only [clockwise, List.mem_append, List.mem_filter]
  by_cases hk : mark ≤ k <;> simp [hk]

theorem clockwise_filter (mark : κ) (p : κ → Bool) (keys : List κ) :
    clockwise mark (keys.filter p) = (clockwise mark keys).filter p := by
  simp only [clockwise, List.filter_append, List.filter_filter, Bool.and_comm]

theorem eraseDups_clockwise (mark : κ) (keys : List κ) :
    (clockwise mark keys).eraseDups = clockwise mark keys.eraseDups := by
  rw [clockwise, List.eraseDups_append, clockwise, eraseDups_filter]
  congr 1
  -- nothing is both below the mark and not below it
  have hnone : (keys.filter fun k => !decide (mark ≤ k)).removeAll
      (keys.filter fun k => decide (mark ≤ k)) = keys.filter fun k => !decide (mark ≤ k) := by
    refine List.filter_eq_self.mpr fun k hk => ?_
    simp only [List.mem_filter] at hk
    simp [List.mem_filter, hk.2]
  rw [hnone, eraseDups_filter]

/-- A sorted list is cut by the mark into a front part below it and the rest. -/
theorem filter_of_cut {mark : κ} {keys : List κ} {i : ℕ} (hi : i ≤ keys.length)
    (hlow : ∀ a (ha : a < keys.length), a < i → keys[a] < mark)
    (hhigh : ∀ a (ha : a < keys.length), i ≤ a → mark ≤ keys[a]) :
    clockwise mark keys = keys.drop i ++ keys.take i := by
  have hfront : ∀ k ∈ keys.take i, decide (mark ≤ k) = false := by
    intro k hk
    obtain ⟨a, ha, rfl⟩ := List.getElem_of_mem hk
    rw [List.length_take] at ha
    rw [List.getElem_take]
    exact decide_eq_false (not_le.mpr (hlow a (by omega) (by omega)))
  have hback : ∀ k ∈ keys.drop i, decide (mark ≤ k) = true := by
    intro k hk
    obtain ⟨a, ha, rfl⟩ := List.getElem_of_mem hk
    rw [List.length_drop] at ha
    rw [List.getElem_drop]
    exact decide_eq_true (hhigh (i + a) (by omega) (by omega))
  have hsplit := List.take_append_drop i keys
  have hge : keys.filter (fun k => decide (mark ≤ k)) = keys.drop i := by
    conv_lhs => rw [← hsplit]
    rw [List.filter_append, List.filter_eq_self.mpr hback, List.filter_eq_nil_iff.mpr,
      List.nil_append]
    exact fun k hk => by simp [hfront k hk]
  have hlt : keys.filter (fun k => !decide (mark ≤ k)) = keys.take i := by
    conv_lhs => rw [← hsplit]
    rw [List.filter_append, List.filter_eq_self.mpr (fun k hk => by simp [hfront k hk]),
      List.filter_eq_nil_iff.mpr, List.append_nil]
    exact fun k hk => by simp [hback k hk]
  rw [clockwise, hge, hlt]

/-- In a sorted list, searching for the mark and going back to the start when there
is nothing left ends where the walk begins. -/
theorem rotate_search {keys : List κ} (hsorted : keys.Pairwise (· ≤ ·)) (mark : κ) (d : κ) :
    let i := search keys.length fun i => decide (mark ≤ keys.getD i d)
    keys.rotate (if i = keys.length then 0 else i) = clockwise mark keys := by
  intro i
  have hmono : ∀ a b, a ≤ b → b < keys.length →
      decide (mark ≤ keys.getD a d) = true → decide (mark ≤ keys.getD b d) = true := by
    intro a b hab hb ha
    rw [decide_eq_true_eq] at ha ⊢
    rw [List.getD_eq_getElem keys d (by omega)] at ha
    rw [List.getD_eq_getElem keys d hb]
    rcases Nat.eq_or_lt_of_le hab with rfl | hlt
    · exact ha
    · exact ha.trans (List.pairwise_iff_getElem.mp hsorted a b (by omega) hb hlt)
  obtain ⟨hi, hlow, hhigh⟩ : i ≤ keys.length ∧ _ ∧ _ :=
    searchLoop_spec hmono keys.length 0 keys.length (Nat.zero_le _) le_rfl (by omega) (by omega)
      (by omega)
  have hcut : clockwise mark keys = keys.drop i ++ keys.take i := by
    refine filter_of_cut hi (fun a ha hai => ?_) fun a ha hai => ?_
    · have hfalse := hlow a hai
      rw [decide_eq_false_iff_not, List.getD_eq_getElem keys d ha] at hfalse
      exact not_le.mp hfalse
    · have htrue := hhigh a hai ha
      rwa [decide_eq_true_eq, List.getD_eq_getElem keys d ha] at htrue
  rw [hcut]
  by_cases hend : i = keys.length
  · rw [if_pos hend]
    rw [hend, List.rotate_zero, List.drop_length, List.take_length, List.nil_append]
  · rw [if_neg hend]
    rw [List.rotate_eq_drop_append_take hi]

/-- Sorted lists with the same elements agree once repetitions are dropped. -/
theorem eraseDups_eq_of_sorted {keys keys' : List κ} (h : keys.Pairwise (· ≤ ·))
    (h' : keys'.Pairwise (· ≤ ·)) (hmem : ∀ k, k ∈ keys ↔ k ∈ keys') :
    keys.eraseDups = keys'.eraseDups := by
  refine List.Perm.eq_of_pairwise (fun a b _ _ hab hba => le_antisymm hab hba)
    (h.sublist (eraseDups_sublist keys)) (h'.sublist (eraseDups_sublist keys')) ?_
  refine (List.perm_ext_iff_of_nodup (nodup_eraseDups keys) (nodup_eraseDups keys')).mpr ?_
  intro k
  rw [List.mem_eraseDups, List.mem_eraseDups]
  exact hmem k

variable {ι : Type} [BEq ι]

def labels (mark : κ) (label : κ → ι) (keys : List κ) : List ι :=
  ((clockwise mark keys).map label).eraseDups

/-- The first label is that of the first element on the way. -/
theorem head?_labels (mark : κ) (label : κ → ι) (keys : List κ) :
    (labels mark label keys).head? = (clockwise mark keys).head?.map label := by
  unfold labels
  cases clockwise mark keys with
  | nil => simp
  | cons k rest => simp [List.eraseDups_cons]

variable [LawfulBEq ι]

theorem mem_labels {mark : κ} {label : κ → ι} {keys : List κ} {a : ι} :
    a ∈ labels mark label keys ↔ ∃ k ∈ keys, label k = a := by
  simp only [labels, List.mem_eraseDups, List.mem_map, mem_clockwise]

theorem nodup_labels (mark : κ) (label : κ → ι) (keys : List κ) : (labels mark label keys).Nodup :=
  nodup_eraseDups _

/-- The labels depend on the elements only. -/
theorem labels_congr {mark : κ} {label label' : κ → ι} {keys keys' : List κ}
    (h : keys.Pairwise (· ≤ ·)) (h' : keys'.Pairwise (· ≤ ·)) (hmem : ∀ k, k ∈ keys ↔ k ∈ keys')
    (hlabel : ∀ k ∈ keys, label k = label' k) :
    labels mark label keys = labels mark label' keys' := by
  have hmap : (clockwise mark keys).map label = (clockwise mark keys).map label' :=
    List.map_congr_left fun k hk => hlabel k (mem_clockwise.mp hk)
  unfold labels
  rw [hmap, ← eraseDups_map_eraseDups, ← eraseDups_map_eraseDups label' (clockwise mark keys'),
    eraseDups_clockwise, eraseDups_clockwise, eraseDups_eq_of_sorted h h' hmem]

/-- Leaving out the elements of one label leaves the others in their order. -/
theorem labels_filter (mark : κ) (label : κ → ι) (keys : List κ) (p : ι → Bool) :
    labels mark label (keys.filter fun k => p (label k)) = (labels mark label keys).filter p := by
  unfold labels
  rw [clockwise_filter, ← eraseDups_filter, List.filter_map]
  rfl

end Clockwise

end Supercache.Successors
