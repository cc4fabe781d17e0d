import Mathlib

/-!
A byte-counted recency list with an index. The list holds the nodes, most
recent first; the index sends a key to the identity of its node, as a map of
pointers into a linked list does. Every operation keeps the two in step and the
byte total equal to the sum of the node costs.
-/
namespace Supercache.Lru

structure Node (κ α : Type) where
  id : ℕ
  key : κ
  cost : ℕ
  val : α

structure Cache (κ α : Type) where
  /-- The byte budget; zero or less means unbounded. -/
  maxBytes : ℤ
  bytes : ℤ
  items : AList (fun _ : κ => ℕ)
  /-- Most recent first. -/
  order : List (Node κ α)
  /-- The identity of the next node. -/
  fresh : ℕ
  evictions : ℕ

def totalCost {κ α : Type} (order : List (Node κ α)) : ℤ :=
  (order.map fun n => (n.cost : ℤ)).sum

section TotalCost

variable {κ α : Type}

@[simp]
theorem totalCost_nil : totalCost ([] : List (Node κ α)) = 0 := rfl

@[simp]
theorem totalCost_cons (n : Node κ α) (rest : List (Node κ α)) :
    totalCost (n :: rest) = n.cost + totalCost rest := by
  simp [totalCost]

theorem totalCost_nonneg (order : List (Node κ α)) : 0 ≤ totalCost order := by
  induction order with
  | nil => simp
  | cons n rest ih =>
    rw [totalCost_cons]
    omega

variable {l₁ l₂ : List (Node κ α)}

theorem totalCost_perm (h : l₁.Perm l₂) : totalCost l₁ = totalCost l₂ :=
  (h.map _).sum_eq

theorem totalCost_filter_add (p : Node κ α → Bool) (order : List (Node κ α)) :
    totalCost (order.filter p) + totalCost (order.filter fun n => !p n) = totalCost order := by
  induction order with
  | nil => simp
  | cons n rest ih =>
    cases hp : p n <;> simp only [List.filter_cons, hp, Bool.not_false, Bool.not_true, if_true,
      Bool.false_eq_true, if_false, totalCost_cons] <;> omega

theorem totalCost_sublist (h : l₁.Sublist l₂) : totalCost l₁ ≤ totalCost l₂ := by
  induction h with
  | slnil => simp
  | cons n _ ih =>
    rw [totalCost_cons]
    omega
  | cons_cons n _ ih =>
    rw [totalCost_cons, totalCost_cons]
    omega

end TotalCost

namespace Cache

variable {κ α : Type}

def empty (maxBytes : ℤ) : Cache κ α where
  maxBytes := maxBytes
  bytes := 0
  items := ∅
  order := []
  fresh := 0
  evictions := 0

def overwrite (s : Cache κ α) (n : Node κ α) (cost : ℕ) (val : α) : Cache κ α :=
  { s with
    order := s.order.map fun m => if m.id = n.id then { m with cost := cost, val := val } else m }

def moveToFront (s : Cache κ α) (n : Node κ α) : Cache κ α :=
  { s with
    order := (s.order.filter fun m => m.id == n.id) ++ s.order.filter fun m => m.id != n.id }

theorem moveToFront_perm (s : Cache κ α) (n : Node κ α) : (s.moveToFront n).order.Perm s.order := by
  simpa [moveToFront, bne] using List.filter_append_perm (fun m => m.id == n.id) s.order

def charge (s : Cache κ α) (old cost : ℕ) (clamp : Bool) : Cache κ α :=
  let b := s.bytes + ((cost : ℤ) - old)
  { s with bytes := if clamp ∧ b < 0 then 0 else b }

def rewrite (s : Cache κ α) (n : Node κ α) (cost : ℕ) (val : α) (clamp : Bool) : Cache κ α :=
  (s.overwrite n cost val).charge n.cost cost clamp

def clear (s : Cache κ α) : Cache κ α := { s with bytes := 0, items := ∅, order := [] }

variable [DecidableEq κ]

def find (s : Cache κ α) (k : κ) : Option (Node κ α) :=
  match s.items.lookup k with
  | none => none
  | some id => s.order.find? fun n => n.id == id

def removeElement (s : Cache κ α) (n : Node κ α) : Cache κ α :=
  { s with
    items := s.items.erase n.key
    order := s.order.filter fun m => m.id != n.id
    bytes := if s.bytes - n.cost < 0 then 0 else s.bytes - n.cost }

def pushFront (s : Cache κ α) (k : κ) (cost : ℕ) (val : α) : Cache κ α :=
  { s with
    items := s.items.insert k s.fresh
    order := ⟨s.fresh, k, cost, val⟩ :: s.order
    bytes := s.bytes + cost
    fresh := s.fresh + 1 }

/-- Index and list name the same nodes, and the total is exact. -/
structure WF (s : Cache κ α) : Prop where
  ids_nodup : (s.order.map Node.id).Nodup
  id_lt : ∀ n ∈ s.order, n.id < s.fresh
  lookup_iff : ∀ k id, s.items.lookup k = some id ↔ ∃ n ∈ s.order, n.key = k ∧ n.id = id
  bytes_eq : s.bytes = totalCost s.order

theorem WF.empty (maxBytes : ℤ) : WF (Cache.empty maxBytes : Cache κ α) where
  ids_nodup := by simp [Cache.empty]
  id_lt := by simp [Cache.empty]
  lookup_iff := by simp [Cache.empty]
  bytes_eq := rfl

theorem WF.clear (s : Cache κ α) : s.clear.WF where
  ids_nodup := by simp [Cache.clear]
  id_lt := by simp [Cache.clear]
  lookup_iff := by simp [Cache.clear]
  bytes_eq := rfl

variable {s : Cache κ α} {n m : Node κ α} {k : κ}

section

variable (h : s.WF)
include h

theorem WF.bytes_nonneg : 0 ≤ s.bytes := by
  rw [h.bytes_eq]
  exact totalCost_nonneg s.order

theorem WF.eq_of_id_eq (hm : m ∈ s.order) (hn : n ∈ s.order) (hid : m.id = n.id) :
    m = n :=
  List.inj_on_of_nodup_map h.ids_nodup hm hn hid

theorem WF.eq_of_key_eq (hm : m ∈ s.order) (hn : n ∈ s.order) (hkey : m.key = n.key) :
    m = n := by
  have hlm := (h.lookup_iff m.key m.id).mpr ⟨m, hm, rfl, rfl⟩
  have hln := (h.lookup_iff m.key n.id).mpr ⟨n, hn, hkey.symm, rfl⟩
  exact h.eq_of_id_eq hm hn (Option.some.inj (hlm.symm.trans hln))

theorem WF.order_nodup : s.order.Nodup :=
  List.Nodup.of_map _ h.ids_nodup

theorem WF.keys_nodup : (s.order.map Node.key).Nodup :=
  List.Nodup.map_on (fun _ hm _ hn heq => h.eq_of_key_eq hm hn heq) h.order_nodup

/-- A key is found exactly when a node of the list carries it. -/
theorem WF.find_eq_some_iff (k : κ) (n : Node κ α) :
    s.find k = some n ↔ n ∈ s.order ∧ n.key = k := by
  unfold find
  constructor
  · intro hf
    rcases hid : AList.lookup k s.items with _ | id
    · simp [hid] at hf
    · simp only [hid] at hf
      obtain ⟨m, hm, hkey, rfl⟩ := (h.lookup_iff k id).mp hid
      have hn := List.mem_of_find?_eq_some hf
      have hpid := List.find?_some hf
      rw [h.eq_of_id_eq hn hm (by simpa using hpid)]
      exact ⟨hm, hkey⟩
  · rintro ⟨hn, hkey⟩
    have hid := (h.lookup_iff k n.id).mpr ⟨n, hn, hkey, rfl⟩
    simp only [hid]
    cases hf : s.order.find? fun m => m.id == n.id with
    | none => exact absurd (List.find?_eq_none.mp hf n hn) (by simp)
    | some m =>
      have hmem := List.mem_of_find?_eq_some hf
      have hpid := List.find?_some hf
      rw [h.eq_of_id_eq hmem hn (by simpa using hpid)]

theorem WF.find_eq_none_iff (k : κ) : s.find k = none ↔ ∀ n ∈ s.order, n.key ≠ k := by
  rw [Option.eq_none_iff_forall_ne_some]
  constructor
  · intro hno n hn hkey
    exact hno n ((h.find_eq_some_iff k n).mpr ⟨hn, hkey⟩)
  · intro hall n hf
    obtain ⟨hn, hkey⟩ := (h.find_eq_some_iff k n).mp hf
    exact hall n hn hkey

theorem WF.find_mem (hf : s.find k = some n) : n ∈ s.order :=
  ((h.find_eq_some_iff k n).mp hf).1

theorem WF.find_key (hf : s.find k = some n) : n.key = k :=
  ((h.find_eq_some_iff k n).mp hf).2

end

/-- Two caches whose nodes of one key agree find the same node for it. -/
theorem WF.find_congr {t : Cache κ α} (hs : s.WF) (ht : t.WF) (k : κ)
    (h : ∀ n : Node κ α, n.key = k → (n ∈ s.order ↔ n ∈ t.order)) : s.find k = t.find k := by
  apply Option.ext
  intro n
  rw [hs.find_eq_some_iff, ht.find_eq_some_iff]
  constructor
  · rintro ⟨hn, hkey⟩
    exact ⟨(h n hkey).mp hn, hkey⟩
  · rintro ⟨hn, hkey⟩
    exact ⟨(h n hkey).mpr hn, hkey⟩

@[simp]
theorem mem_removeElement (s : Cache κ α) (n m : Node κ α) :
    m ∈ (s.removeElement n).order ↔ m ∈ s.order ∧ m.id ≠ n.id := by
  simp [removeElement]

@[simp]
theorem mem_pushFront (s : Cache κ α) (k : κ) (cost : ℕ) (val : α) (m : Node κ α) :
    m ∈ (s.pushFront k cost val).order ↔ m = ⟨s.fresh, k, cost, val⟩ ∨ m ∈ s.order := by
  simp [pushFront]

variable (h : s.WF)
include h

theorem WF.filter_id_eq (hn : n ∈ s.order) :
    (s.order.filter fun m => m.id == n.id) = [n] := by
  refine List.perm_singleton.mp ((List.perm_ext_iff_of_nodup (h.order_nodup.filter _) (by simp)).mpr
    fun m => ?_)
  simp only [List.mem_filter, beq_iff_eq, List.mem_singleton]
  constructor
  · rintro ⟨hm, hid⟩
    exact h.eq_of_id_eq hm hn hid
  · rintro rfl
    exact ⟨hn, rfl⟩

theorem WF.totalCost_remove (hn : n ∈ s.order) :
    totalCost (s.order.filter fun m => m.id != n.id) = s.bytes - n.cost := by
  have hsplit := totalCost_filter_add (fun m => m.id == n.id) s.order
  rw [h.filter_id_eq hn, ← h.bytes_eq] at hsplit
  simp only [totalCost_cons, totalCost_nil] at hsplit
  simp only [bne]
  omega

/-- Removing a node keeps index, list and total in step. -/
theorem WF.removeElement (hn : n ∈ s.order) : (s.removeElement n).WF where
  ids_nodup := h.ids_nodup.sublist (List.filter_sublist.map _)
  id_lt := by
    intro m hm
    exact h.id_lt m ((mem_removeElement s n m).mp hm).1
  lookup_iff := by
    intro k id
    simp only [mem_removeElement]
    by_cases hk : k = n.key
    · subst hk
      simp only [Cache.removeElement, AList.lookup_erase, reduceCtorEq, false_iff]
      rintro ⟨m, ⟨hm, hid⟩, hkey, -⟩
      exact hid (congrArg Node.id (h.eq_of_key_eq hm hn hkey))
    · simp only [Cache.removeElement]
      rw [AList.lookup_erase_ne hk, h.lookup_iff]
      constructor
      · rintro ⟨m, hm, rfl, hid⟩
        exact ⟨m, ⟨hm, fun hmn => hk (congrArg Node.key (h.eq_of_id_eq hm hn hmn))⟩, rfl, hid⟩
      · rintro ⟨m, ⟨hm, -⟩, hkey, hid⟩
        exact ⟨m, hm, hkey, hid⟩
  bytes_eq := by
    have hcost := h.totalCost_remove hn
    have hnonneg := totalCost_nonneg (s.order.filter fun m => m.id != n.id)
    simp only [Cache.removeElement]
    rw [hcost, if_neg (by omega)]

theorem WF.find_removeElement (hn : n ∈ s.order) (k : κ) :
    (s.removeElement n).find k = if k = n.key then none else s.find k := by
  by_cases hk : k = n.key
  · rw [if_pos hk]
    rw [(h.removeElement hn).find_eq_none_iff]
    intro m hm hkey
    obtain ⟨hm, hid⟩ := (mem_removeElement s n m).mp hm
    exact hid (congrArg Node.id (h.eq_of_key_eq hm hn (hkey.trans hk)))
  · rw [if_neg hk]
    apply (h.removeElement hn).find_congr h
    intro m hkey
    rw [mem_removeElement, and_iff_left_iff_imp]
    intro hm hid
    exact hk (hkey.symm.trans (congrArg Node.key (h.eq_of_id_eq hm hn hid)))

/-- A new front node keeps index, list and total in step. -/
theorem WF.pushFront (hk : s.find k = none) (cost : ℕ) (val : α) :
    (s.pushFront k cost val).WF where
  ids_nodup := by
    simp only [Cache.pushFront, List.map_cons, List.nodup_cons]
    refine ⟨?_, h.ids_nodup⟩
    intro hmem
    obtain ⟨m, hm, hid⟩ := List.mem_map.mp hmem
    exact absurd (h.id_lt m hm) (by omega)
  id_lt := by
    intro m hm
    rcases (mem_pushFront s k cost val m).mp hm with rfl | hm
    · simp [Cache.pushFront]
    · exact Nat.lt_succ_of_lt (h.id_lt m hm)
  lookup_iff := by
    intro k' id
    have habsent := (h.find_eq_none_iff k).mp hk
    simp only [mem_pushFront]
    by_cases hkk : k' = k
    · subst hkk
      simp only [Cache.pushFront, AList.lookup_insert, Option.some.injEq]
      constructor
      · rintro rfl
        exact ⟨_, Or.inl rfl, rfl, rfl⟩
      · rintro ⟨m, rfl | hm, hkey, hid⟩
        · exact hid
        · exact absurd hkey (habsent m hm)
    · simp only [Cache.pushFront]
      rw [AList.lookup_insert_ne hkk, h.lookup_iff]
      constructor
      · rintro ⟨m, hm, hkey, hid⟩
        exact ⟨m, Or.inr hm, hkey, hid⟩
      · rintro ⟨m, rfl | hm, hkey, hid⟩
        · exact absurd hkey.symm hkk
        · exact ⟨m, hm, hkey, hid⟩
  bytes_eq := by
    simp only [Cache.pushFront, totalCost_cons, h.bytes_eq]
    omega

theorem WF.find_pushFront (hk : s.find k = none) (cost : ℕ) (val : α) (k' : κ) :
    (s.pushFront k cost val).find k' =
      if k' = k then some ⟨s.fresh, k, cost, val⟩ else s.find k' := by
  by_cases hkk : k' = k
  · rw [if_pos hkk]
    rw [(h.pushFront hk cost val).find_eq_some_iff]
    simp [hkk]
  · rw [if_neg hkk]
    apply (h.pushFront hk cost val).find_congr h
    intro m hkey
    rw [mem_pushFront, or_iff_right_iff_imp]
    rintro rfl
    exact absurd hkey.symm hkk

end Cache

end Supercache.Lru
