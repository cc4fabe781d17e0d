import Supercache.Wire

/-!
Finite maps keyed by byte strings, written as a sequence of records. The map codec inserts the
records it reads one after another, so their order does not matter and a repeated key keeps its
last value. A map into numbers may also be the index of a list.
-/
namespace Supercache.ByteMap

open Wire

abbrev Map (V : Type) := Std.ExtTreeMap Bytes V compare

section Entries

variable {V : Type}

theorem getElem?_insert (m : Map V) (k x : Bytes) (v : V) :
    (m.insert k v)[x]? = if k = x then some v else m[x]? := by
  rw [Std.ExtTreeMap.getElem?_insert]
  simp only [Std.LawfulEqCmp.compare_eq_iff_eq]

theorem getElem?_erase (m : Map V) (k x : Bytes) :
    (m.erase k)[x]? = if k = x then none else m[x]? := by
  rw [Std.ExtTreeMap.getElem?_erase]
  simp only [Std.LawfulEqCmp.compare_eq_iff_eq]

def ofEntries (es : List (Bytes × V)) : Map V :=
  es.foldl (fun m e => m.insert e.1 e.2) ∅

private theorem getElem?_foldl_insert (es : List (Bytes × V)) (m : Map V) (k : Bytes)
    (hk : k ∉ es.map Prod.fst) : (es.foldl (fun m e => m.insert e.1 e.2) m)[k]? = m[k]? := by
  induction es generalizing m with
  | nil => rfl
  | cons e es ih =>
    simp only [List.map_cons, List.mem_cons, not_or] at hk
    rw [List.foldl_cons, ih _ hk.2, Std.ExtTreeMap.getElem?_insert]
    simp [Ne.symm hk.1]

private theorem getElem?_foldl_insert_of_mem (es : List (Bytes × V)) (m : Map V)
    (hes : (es.map Prod.fst).Nodup) {k : Bytes} {v : V} (hk : (k, v) ∈ es) :
    (es.foldl (fun m e => m.insert e.1 e.2) m)[k]? = some v := by
  induction es generalizing m with
  | nil => simp at hk
  | cons e es ih =>
    simp only [List.map_cons, List.nodup_cons] at hes
    rw [List.foldl_cons]
    rcases List.mem_cons.mp hk with rfl | hk
    · rw [getElem?_foldl_insert es _ k hes.1, Std.ExtTreeMap.getElem?_insert]
      simp
    · exact ih _ hes.2 hk

theorem keys_nodup (m : Map V) : (m.toList.map Prod.fst).Nodup := by
  have h := m.distinct_keys_toList
  rw [List.Nodup, List.pairwise_map]
  refine h.imp fun hne heq => hne ?_
  rw [heq]
  exact Std.ReflCmp.compare_self

theorem toList_singleton (k : Bytes) (v : V) : ((∅ : Map V).insert k v).toList = [(k, v)] := by
  have hnodup := List.Nodup.of_map _ (keys_nodup ((∅ : Map V).insert k v))
  refine List.perm_singleton.mp ((List.perm_ext_iff_of_nodup hnodup (by simp)).mpr fun e => ?_)
  obtain ⟨k', v'⟩ := e
  rw [Std.ExtTreeMap.mem_toList_iff_getElem?_eq_some, Std.ExtTreeMap.getElem?_insert]
  by_cases hk : k = k'
  · subst hk
    simp [eq_comm]
  · simp [hk, Ne.symm hk]

/-- The entries of a map, inserted in any order, rebuild it. -/
theorem ofEntries_eq_of_perm (m : Map V) (es : List (Bytes × V)) (h : es.Perm m.toList) :
    ofEntries es = m := by
  have hnodup : (es.map Prod.fst).Nodup := (h.map _).nodup_iff.mpr (keys_nodup m)
  apply Std.ExtTreeMap.ext_getElem?
  intro k
  cases hk : m[k]? with
  | some v =>
    have hmem : (k, v) ∈ es := h.mem_iff.mpr (Std.ExtTreeMap.mem_toList_iff_getElem?_eq_some.mpr hk)
    exact getElem?_foldl_insert_of_mem es ∅ hnodup hmem
  | none =>
    have hnot : k ∉ es.map Prod.fst := by
      intro hmem
      obtain ⟨⟨k', v⟩, hin, rfl⟩ := List.mem_map.mp hmem
      have hsome := Std.ExtTreeMap.mem_toList_iff_getElem?_eq_some.mp (h.mem_iff.mp hin)
      rw [hk] at hsome
      simp at hsome
    rw [ofEntries, getElem?_foldl_insert es ∅ k hnot]
    simp

/-- What the map has was among the entries. -/
theorem mem_of_mem_ofEntries (es : List (Bytes × V)) {e : Bytes × V}
    (h : e ∈ (ofEntries es).toList) : e ∈ es := by
  obtain ⟨k, v⟩ := e
  rw [Std.ExtTreeMap.mem_toList_iff_getElem?_eq_some] at h
  suffices hgen : ∀ m : Map V, (es.foldl (fun m e => m.insert e.1 e.2) m)[k]? = some v →
      (k, v) ∈ es ∨ m[k]? = some v by
    rcases hgen ∅ h with hmem | hempty
    · exact hmem
    · simp at hempty
  clear h
  induction es with
  | nil => exact fun m h => Or.inr h
  | cons e es ih =>
    intro m h
    rw [List.foldl_cons] at h
    rcases ih _ h with hmem | hins
    · exact Or.inl (List.mem_cons_of_mem e hmem)
    · rw [Std.ExtTreeMap.getElem?_insert] at hins
      by_cases hk : e.1 = k
      · subst hk
        simp only [Std.ReflCmp.compare_self, if_true, Option.some.injEq] at hins
        subst hins
        exact Or.inl (List.mem_cons_self ..)
      · simp only [Std.LawfulEqCmp.compare_eq_iff_eq, hk, if_false] at hins
        exact Or.inr hins

end Entries

section Indexes

def Indexes (xs : List Bytes) (idx : Map ℕ) : Prop :=
  ∀ (x : Bytes) (i : ℕ), idx[x]? = some i ↔ xs[i]? = some x

namespace Indexes

variable {xs : List Bytes} {idx : Map ℕ}

theorem empty : Indexes [] ∅ := by
  intro x i
  simp

variable (h : Indexes xs idx)
include h

theorem not_mem {x : Bytes} (hnew : idx[x]? = none) : x ∉ xs := by
  intro hmem
  obtain ⟨i, hi⟩ := List.mem_iff_getElem?.mp hmem
  rw [(h x i).mpr hi] at hnew
  exact absurd hnew (Option.some_ne_none i)

theorem nodup : xs.Nodup := by
  rw [List.nodup_iff_getElem?_ne_getElem?]
  intro i j hij hj heq
  have hj' := (h xs[j] j).mpr (List.getElem?_eq_getElem hj)
  have hi := (h xs[j] i).mpr (heq.trans (List.getElem?_eq_getElem hj))
  have hsame : i = j := Option.some.inj (hi.symm.trans hj')
  omega

/-- A new member at the end. -/
theorem push {x : Bytes} (hnew : idx[x]? = none) :
    Indexes (xs ++ [x]) (idx.insert x xs.length) := by
  intro y i
  rw [getElem?_insert]
  by_cases hy : x = y
  · subst hy
    rw [if_pos rfl, Option.some.injEq, List.getElem?_append]
    by_cases hlt : i < xs.length
    · rw [if_pos hlt]
      have hne : xs[i]? ≠ some x := fun hi => h.not_mem hnew (List.mem_of_getElem? hi)
      exact iff_of_false (by omega) hne
    · rw [if_neg hlt]
      rw [List.getElem?_singleton]
      split
      · exact iff_of_true (by omega) rfl
      · exact iff_of_false (by omega) (by simp)
  · rw [if_neg hy, h y i, List.getElem?_append]
    by_cases hlt : i < xs.length
    · rw [if_pos hlt]
    · rw [if_neg hlt]
      rw [List.getElem?_eq_none (Nat.not_lt.mp hlt), List.getElem?_singleton]
      split
      · simp [hy]
      · rfl

/-- A new member in the place of an old one. -/
theorem replace {x old : Bytes} {m : ℕ} (hold : xs[m]? = some old)
    (hnew : idx[x]? = none) : Indexes (xs.set m x) ((idx.erase old).insert x m) := by
  have hm : m < xs.length := (List.getElem?_eq_some_iff.mp hold).1
  intro y i
  rw [getElem?_insert, getElem?_erase, List.getElem?_set]
  by_cases hi : m = i
  · subst hi
    rw [if_pos rfl, if_pos hm]
    by_cases hy : x = y
    · simp [hy]
    · rw [if_neg hy]
      refine iff_of_false ?_ (by simpa using hy)
      by_cases heq : old = y
      · simp [heq]
      · rw [if_neg heq]
        rw [h y m, hold]
        simpa using heq
  · rw [if_neg hi]
    by_cases hy : x = y
    · subst hy
      rw [if_pos rfl]
      exact iff_of_false (by simpa using hi) fun hmem => h.not_mem hnew (List.mem_of_getElem? hmem)
    · rw [if_neg hy]
      by_cases heq : old = y
      · rw [if_pos heq]
        subst heq
        -- the old member stands at one place only
        refine iff_of_false (by simp) fun hmem => hi ?_
        exact Option.some.inj (((h old m).mpr hold).symm.trans ((h old i).mpr hmem))
      · rw [if_neg heq]
        exact h y i

end Indexes

end Indexes

structure RecordCodec (V : Type) where
  write : Bytes × V → Bytes
  read : Bytes → Option ((Bytes × V) × Bytes)
  /-- The values a reader lets into the map. -/
  accepts : V → Bool
  /-- The number of bytes of a record, counted without writing it. -/
  size : Bytes × V → ℕ
  /-- The entries the format can hold. -/
  Fits : Bytes × V → Prop
  read_write : ∀ e rest, Fits e → read (write e ++ rest) = some (e, rest)
  write_ne_nil : ∀ e, write e ≠ []
  fits_of_read : ∀ b e rest, read b = some (e, rest) → Fits e
  length_write : ∀ e, (write e).length = size e

namespace RecordCodec

variable {V : Type} (C : RecordCodec V)

def encodeEntries (es : List (Bytes × V)) : Bytes := es.flatMap C.write

def decode (b : Bytes) : Option (Map V) :=
  match readAll C.read b.length b with
  | none => none
  | some es => if es.all fun e => C.accepts e.2 then some (ofEntries es) else none

def approxWireBytes (m : Map V) : ℕ := (m.toList.map C.size).sum

def Storable (m : Map V) : Prop := ∀ e ∈ m.toList, C.Fits e ∧ C.accepts e.2 = true

theorem storable_empty : C.Storable ∅ := by
  simp [Storable]

theorem decode_encodeEntries (m : Map V) (es : List (Bytes × V)) (h : es.Perm m.toList)
    (hm : C.Storable m) : C.decode (C.encodeEntries es) = some m := by
  have hread : readAll C.read (C.encodeEntries es).length (C.encodeEntries es) = some es :=
    readAll_flatMap es _ (fun e he rest => C.read_write e rest (hm e (h.mem_iff.mp he)).1)
      (fun e _ => C.write_ne_nil e) (Nat.le_refl _)
  have haccept : (es.all fun e => C.accepts e.2) = true :=
    List.all_eq_true.mpr fun e he => (hm e (h.mem_iff.mp he)).2
  simp only [decode, hread, haccept, if_true, ofEntries_eq_of_perm m es h]

theorem storable_of_decode {b : Bytes} {m : Map V} (h : C.decode b = some m) : C.Storable m := by
  unfold decode at h
  rcases hread : readAll C.read (List.length b) b with _ | es
  · simp [hread] at h
  · simp only [hread] at h
    by_cases haccept : (es.all fun e => C.accepts e.2)
    · rw [if_pos haccept] at h
      rw [Option.some.injEq] at h
      subst h
      intro e he
      have hmem := mem_of_mem_ofEntries es he
      exact ⟨readAll_forall C.fits_of_read _ b es hread e hmem,
        List.all_eq_true.mp haccept e hmem⟩
    · simp [haccept] at h

theorem encodeEntries_length (m : Map V) (es : List (Bytes × V)) (h : es.Perm m.toList) :
    (C.encodeEntries es).length = C.approxWireBytes m := by
  rw [encodeEntries, List.length_flatMap, approxWireBytes, ← (h.map C.size).sum_eq]
  congr 1
  exact List.map_congr_left fun e _ => C.length_write e

theorem storable_insert {m : Map V} (hm : C.Storable m) {k : Bytes} {v : V} (hfit : C.Fits (k, v))
    (haccept : C.accepts v = true) : C.Storable (m.insert k v) := by
  rintro ⟨k', v'⟩ he
  rw [Std.ExtTreeMap.mem_toList_iff_getElem?_eq_some, Std.ExtTreeMap.getElem?_insert] at he
  by_cases hk : k = k'
  · subst hk
    simp only [Std.ReflCmp.compare_self, if_true, Option.some.injEq] at he
    subst he
    exact ⟨hfit, haccept⟩
  · simp only [Std.LawfulEqCmp.compare_eq_iff_eq, hk, if_false] at he
    exact hm _ (Std.ExtTreeMap.mem_toList_iff_getElem?_eq_some.mpr he)

theorem storable_erase {m : Map V} (hm : C.Storable m) (k : Bytes) : C.Storable (m.erase k) := by
  rintro ⟨k', v'⟩ he
  rw [Std.ExtTreeMap.mem_toList_iff_getElem?_eq_some, Std.ExtTreeMap.getElem?_erase] at he
  split at he
  · simp at he
  · exact hm _ (Std.ExtTreeMap.mem_toList_iff_getElem?_eq_some.mpr he)

end RecordCodec

end Supercache.ByteMap
