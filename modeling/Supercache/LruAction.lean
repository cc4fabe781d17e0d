import Supercache.LruEvict

/-!
Rewriting a linked node in place and moving it to the front, and the actions a
caller can ask for on the node of one key: leave it, drop it, change its value
or its value and cost, or link a new node in its place. An action changes the
node of its own key as asked and touches another key only by evicting it.
-/
namespace Supercache.Lru

namespace Cache

variable {κ α : Type} [DecidableEq κ]

section InPlace

variable {s : Cache κ α} {n : Node κ α}

theorem WF.mem_rewrite (h : s.WF) (hn : n ∈ s.order) (cost : ℕ) (val : α) (clamp : Bool)
    (m : Node κ α) : m ∈ (s.rewrite n cost val clamp).order ↔
      m = { n with cost := cost, val := val } ∨ m ∈ s.order ∧ m.id ≠ n.id := by
  simp only [rewrite, charge, overwrite, List.mem_map]
  constructor
  · rintro ⟨m', hm', rfl⟩
    by_cases hid : m'.id = n.id
    · rw [if_pos hid, h.eq_of_id_eq hm' hn hid]
      exact Or.inl rfl
    · rw [if_neg hid]
      exact Or.inr ⟨hm', hid⟩
  · rintro (rfl | ⟨hm, hid⟩)
    · exact ⟨n, hn, if_pos rfl⟩
    · exact ⟨m, hm, if_neg hid⟩

omit [DecidableEq κ] in
private theorem totalCost_overwrite (l : List (Node κ α)) (hl : (l.map Node.id).Nodup)
    (hn : n ∈ l) (cost : ℕ) (val : α) :
    totalCost (l.map fun m => if m.id = n.id then { m with cost := cost, val := val } else m) =
      totalCost l + ((cost : ℤ) - n.cost) := by
  induction l with
  | nil => simp at hn
  | cons a l ih =>
    simp only [List.map_cons, List.nodup_cons] at hl
    rw [List.map_cons, totalCost_cons, totalCost_cons]
    rcases List.mem_cons.mp hn with rfl | hn
    · -- the identities of the tail differ from this one, so the tail is unchanged
      have htail : (l.map fun m => if m.id = n.id then { m with cost := cost, val := val } else m)
          = l := by
        refine (List.map_congr_left fun m hm => if_neg fun hid => hl.1 ?_).trans (List.map_id l)
        exact List.mem_map.mpr ⟨m, hm, hid⟩
      rw [htail, if_pos rfl]
      simp only
      omega
    · have hid : a.id ≠ n.id := fun hid => hl.1 (hid ▸ List.mem_map.mpr ⟨n, hn, rfl⟩)
      rw [ih hl.2 hn, if_neg hid]
      omega

/-- A new cost is exact, with the clamp or without. -/
theorem WF.rewrite (h : s.WF) (hn : n ∈ s.order) (cost : ℕ) (val : α) (clamp : Bool) :
    (s.rewrite n cost val clamp).WF where
  ids_nodup := by
    have hids : (s.rewrite n cost val clamp).order.map Node.id = s.order.map Node.id := by
      simp only [Cache.rewrite, charge, overwrite, List.map_map]
      refine List.map_congr_left fun m _ => ?_
      simp only [Function.comp_apply]
      split <;> rfl
    rw [hids]
    exact h.ids_nodup
  id_lt := by
    intro m hm
    rcases (h.mem_rewrite hn cost val clamp m).mp hm with rfl | ⟨hm, -⟩
    · exact h.id_lt n hn
    · exact h.id_lt m hm
  lookup_iff := by
    intro k id
    change s.items.lookup k = some id ↔ _
    rw [h.lookup_iff]
    constructor
    · rintro ⟨m, hm, hkey, hid⟩
      by_cases hmn : m.id = n.id
      · obtain rfl := h.eq_of_id_eq hm hn hmn
        exact ⟨_, (h.mem_rewrite hn cost val clamp _).mpr (Or.inl rfl), hkey, hid⟩
      · exact ⟨m, (h.mem_rewrite hn cost val clamp m).mpr (Or.inr ⟨hm, hmn⟩), hkey, hid⟩
    · rintro ⟨m, hm, hkey, hid⟩
      rcases (h.mem_rewrite hn cost val clamp m).mp hm with rfl | ⟨hm, -⟩
      · exact ⟨n, hn, hkey, hid⟩
      · exact ⟨m, hm, hkey, hid⟩
  bytes_eq := by
    have hcost := totalCost_overwrite s.order h.ids_nodup hn cost val
    have hnonneg := totalCost_nonneg (s.rewrite n cost val clamp).order
    simp only [Cache.rewrite, charge, overwrite] at hnonneg ⊢
    rw [hcost, ← h.bytes_eq] at hnonneg ⊢
    exact if_neg (by omega)

theorem WF.find_rewrite (h : s.WF) (hn : n ∈ s.order) (cost : ℕ) (val : α) (clamp : Bool) (k : κ) :
    (s.rewrite n cost val clamp).find k =
      if k = n.key then some { n with cost := cost, val := val } else s.find k := by
  by_cases hk : k = n.key
  · rw [if_pos hk]
    rw [(h.rewrite hn cost val clamp).find_eq_some_iff, h.mem_rewrite hn]
    exact ⟨Or.inl rfl, hk.symm⟩
  · rw [if_neg hk]
    apply (h.rewrite hn cost val clamp).find_congr h
    intro m hkey
    rw [h.mem_rewrite hn]
    constructor
    · rintro (rfl | ⟨hm, -⟩)
      · exact absurd hkey.symm hk
      · exact hm
    · intro hm
      exact Or.inr ⟨hm, fun hid => hk (hkey.symm.trans (congrArg Node.key
        (h.eq_of_id_eq hm hn hid)))⟩

theorem WF.moveToFront (h : s.WF) (n : Node κ α) : (s.moveToFront n).WF where
  ids_nodup := ((moveToFront_perm s n).map _).nodup_iff.mpr h.ids_nodup
  id_lt := fun m hm => h.id_lt m ((moveToFront_perm s n).mem_iff.mp hm)
  lookup_iff := by
    intro k id
    simp only [(moveToFront_perm s n).mem_iff]
    exact h.lookup_iff k id
  bytes_eq := by
    rw [totalCost_perm (moveToFront_perm s n)]
    exact h.bytes_eq

theorem WF.find_moveToFront (h : s.WF) (n : Node κ α) (k : κ) :
    (s.moveToFront n).find k = s.find k :=
  (h.moveToFront n).find_congr h k fun _ _ => (moveToFront_perm s n).mem_iff

end InPlace

end Cache

structure WriteMode where
  /-- A negative byte total is set to zero. -/
  clamp : Bool
  front : Bool
  evicts : Bool

inductive Act (α : Type) where
  | keep
  | remove
  /-- A new value at the same cost. -/
  | amend (val : α) (front : Bool)
  | write (cost : ℕ) (val : α) (mode : WriteMode)
  /-- Links a new node at the front, after unlinking the old one. -/
  | insert (cost : ℕ) (val : α)

namespace Act

variable {α : Type}

def result : Act α → Option α → Option α
  | keep, old => old
  | remove, _ => none
  | amend val _, old => old.map fun _ => val
  | write _ val _, old => old.map fun _ => val
  | insert _ val, _ => some val

def evicts : Act α → Bool
  | write _ _ mode => mode.evicts
  | insert _ _ => true
  | _ => false

def Keeps (P : ℕ → α → Prop) (old : Option α) : Act α → Prop
  | keep => True
  | remove => True
  | amend val _ => ∀ cost a, old = some a → P cost a → P cost val
  | write cost val _ => ∀ cost' a, old = some a → P cost' a → P cost val
  | insert cost val => P cost val

/-- What an action that goes over an item keeps, by the item. -/
theorem found {P : ℕ → α → Prop} {Q : ℕ → Prop} {old : Option α} {it : α} (hold : old = some it)
    (h : ∀ cost, P cost it → Q cost) : ∀ cost a, old = some a → P cost a → Q cost := by
  intro cost a ha
  obtain rfl := Option.some.inj (hold.symm.trans ha)
  exact h cost

end Act

namespace Cache

variable {κ α : Type} [DecidableEq κ]

def lookup (s : Cache κ α) (k : κ) : Option α := (s.find k).map Node.val

theorem lookup_of_find {s : Cache κ α} {k : κ} {n : Node κ α} (h : s.find k = some n) :
    s.lookup k = some n.val := by
  rw [lookup, h]
  rfl

def drop (s : Cache κ α) (k : κ) : Cache κ α :=
  match s.find k with
  | none => s
  | some n => s.removeElement n

def apply (act : Act α) (k : κ) (s : Cache κ α) : Cache κ α :=
  match act with
  | .keep => s
  | .remove => s.drop k
  | .amend val front =>
    match s.find k with
    | none => s
    | some n =>
      if front then (s.rewrite n n.cost val false).moveToFront n
      else s.rewrite n n.cost val false
  | .write cost val mode =>
    match s.find k with
    | none => s
    | some n =>
      if mode.front then (s.rewrite n cost val mode.clamp).moveToFront n
      else s.rewrite n cost val mode.clamp
  | .insert cost val => (s.drop k).pushFront k cost val

def expected (s : Cache κ α) (act : Act α) (k k' : κ) : Option α :=
  if k' = k then act.result (s.lookup k) else s.lookup k'

def exec (pinned : α → Bool) (act : Act α) (k : κ) (s : Cache κ α) : Cache κ α :=
  if act.evicts then (s.apply act k).evict pinned else s.apply act k

section Exec

variable {s : Cache κ α}

section

variable (h : s.WF)
include h

theorem WF.drop (k : κ) : (s.drop k).WF := by
  unfold Cache.drop
  rcases hn : s.find k with _ | n
  · exact h
  · exact h.removeElement (h.find_mem hn)

theorem WF.find_drop (k k' : κ) :
    (s.drop k).find k' = if k' = k then none else s.find k' := by
  unfold Cache.drop
  rcases hn : s.find k with _ | n
  · by_cases hk : k' = k
    · rw [if_pos hk, hk, hn]
    · rw [if_neg hk]
  · rw [h.find_removeElement (h.find_mem hn), h.find_key hn]

/-- An in-place write, moved to the front or not. -/
private theorem WF.find_write {k : κ} {n : Node κ α} (hn : s.find k = some n)
    (cost : ℕ) (val : α) (clamp front : Bool) :
    let t := if front then (s.rewrite n cost val clamp).moveToFront n
      else s.rewrite n cost val clamp
    t.WF ∧ ∀ k', t.find k' =
      if k' = k then some { n with cost := cost, val := val } else s.find k' := by
  obtain ⟨hmem, rfl⟩ := (h.find_eq_some_iff k n).mp hn
  have hw := h.rewrite hmem cost val clamp
  have hfind := h.find_rewrite hmem cost val clamp
  cases front with
  | false => exact ⟨hw, hfind⟩
  | true => exact ⟨hw.moveToFront n, fun k' => (hw.find_moveToFront n k').trans (hfind k')⟩

/-- Each action leaves what is expected of it. -/
theorem WF.apply_spec (act : Act α) (k : κ) :
    (s.apply act k).WF ∧ ∀ k', (s.apply act k).lookup k' = s.expected act k k' := by
  unfold expected lookup
  cases act with
  | keep =>
    refine ⟨h, fun k' => ?_⟩
    by_cases hk : k' = k <;> simp [hk, Cache.apply, Act.result]
  | remove =>
    refine ⟨h.drop k, fun k' => ?_⟩
    simp only [Cache.apply, h.find_drop, Act.result]
    split <;> rfl
  | amend val front =>
    cases hn : s.find k with
    | none =>
      refine ⟨by simpa [Cache.apply, hn] using h, fun k' => ?_⟩
      by_cases hk : k' = k <;> simp [hk, Cache.apply, Act.result, hn]
    | some n =>
      obtain ⟨hwf, hfind⟩ := h.find_write hn n.cost val false front
      refine ⟨by simpa only [Cache.apply, hn] using hwf, fun k' => ?_⟩
      simp only [Cache.apply, hn, hfind, Act.result]
      split <;> rfl
  | write cost val mode =>
    cases hn : s.find k with
    | none =>
      refine ⟨by simpa [Cache.apply, hn] using h, fun k' => ?_⟩
      by_cases hk : k' = k <;> simp [hk, Cache.apply, Act.result, hn]
    | some n =>
      obtain ⟨hwf, hfind⟩ := h.find_write hn cost val mode.clamp mode.front
      refine ⟨by simpa only [Cache.apply, hn] using hwf, fun k' => ?_⟩
      simp only [Cache.apply, hn, hfind, Act.result]
      split <;> rfl
  | insert cost val =>
    have hdrop : (s.drop k).find k = none := by simp [h.find_drop]
    refine ⟨(h.drop k).pushFront hdrop cost val, fun k' => ?_⟩
    simp only [Cache.apply, (h.drop k).find_pushFront hdrop, h.find_drop, Act.result]
    split <;> simp_all

variable (pinned : α → Bool)

theorem WF.exec (act : Act α) (k : κ) :
    (s.exec pinned act k).WF := by
  unfold Cache.exec
  split
  · exact (h.apply_spec act k).1.evict pinned
  · exact (h.apply_spec act k).1

/-- After eviction a key keeps its value, unless that value was unpinned. -/
theorem WF.lookup_evict (k : κ) :
    (s.evict pinned).lookup k = s.lookup k ∨
      (s.evict pinned).lookup k = none ∧ ∃ v, s.lookup k = some v ∧ pinned v = false := by
  unfold lookup
  rcases h.find_evict pinned k with heq | ⟨hnone, n, hn, hpin⟩
  · exact Or.inl (by rw [heq])
  · exact Or.inr ⟨by rw [hnone, Option.map_none], n.val, by rw [hn, Option.map_some], hpin⟩

/-- An action leaves its result at its own key and every other key alone, up to
the eviction of unpinned values. -/
theorem WF.lookup_exec (act : Act α) (k k' : κ) :
    (s.exec pinned act k).lookup k' = s.expected act k k' ∨
      (s.exec pinned act k).lookup k' = none ∧ act.evicts = true ∧
        ∃ a, s.expected act k k' = some a ∧ pinned a = false := by
  obtain ⟨hwf, hlookup⟩ := h.apply_spec act k
  unfold Cache.exec
  by_cases hev : act.evicts
  · rw [if_pos hev]
    rcases hwf.lookup_evict pinned k' with heq | ⟨hnone, a, ha, hpin⟩
    · exact Or.inl (by rw [heq, hlookup])
    · exact Or.inr ⟨hnone, hev, a, by rw [← hlookup, ha], hpin⟩
  · rw [if_neg hev]
    exact Or.inl (hlookup k')

/-- Pinned values are never lost to eviction. -/
theorem WF.lookup_exec_of_pinned (act : Act α) {k k' : κ} {a : α}
    (ha : s.expected act k k' = some a) (hpin : pinned a = true) :
    (s.exec pinned act k).lookup k' = some a := by
  rcases h.lookup_exec pinned act k k' with heq | ⟨-, -, b, hb, hfalse⟩
  · rw [heq, ha]
  · rw [ha, Option.some.injEq] at hb
    rw [← hb, hpin] at hfalse
    exact absurd hfalse (by simp)

end

@[simp]
theorem apply_maxBytes (s : Cache κ α) (act : Act α) (k : κ) :
    (s.apply act k).maxBytes = s.maxBytes := by
  cases act <;> simp only [Cache.apply, Cache.drop] <;> split <;> (try split) <;> rfl

theorem WF.exec_maxBytes (h : s.WF) (pinned : α → Bool) (act : Act α) (k : κ) :
    (s.exec pinned act k).maxBytes = s.maxBytes := by
  unfold Cache.exec
  split
  · rw [evict_maxBytes pinned _ (h.apply_spec act k).1, apply_maxBytes]
  · exact apply_maxBytes s act k

/-- Without a byte budget an action changes nothing but its own key. -/
theorem WF.lookup_exec_of_unbounded (h : s.WF) (hmax : s.maxBytes ≤ 0) (pinned : α → Bool)
    (act : Act α) (k k' : κ) : (s.exec pinned act k).lookup k' = s.expected act k k' := by
  have hexec : s.exec pinned act k = s.apply act k := by
    unfold Cache.exec
    rw [evict_of_unbounded pinned _ (by rw [apply_maxBytes]; exact hmax), ite_self]
  rw [hexec]
  exact (h.apply_spec act k).2 k'

@[simp]
theorem apply_evictions (s : Cache κ α) (act : Act α) (k : κ) :
    (s.apply act k).evictions = s.evictions := by
  cases act <;> simp only [Cache.apply, Cache.drop] <;> split <;> (try split) <;> rfl

theorem WF.evictions_le_exec (h : s.WF) (pinned : α → Bool) (act : Act α) (k : κ) :
    s.evictions ≤ (s.exec pinned act k).evictions := by
  unfold Cache.exec
  split
  · rcases evict_eq_or_lt pinned _ (h.apply_spec act k).1 with heq | hlt
    · rw [heq, apply_evictions]
    · rw [apply_evictions] at hlt
      exact hlt.le
  · rw [apply_evictions]

/-- An action that evicts nothing changes nothing but its own key. -/
theorem WF.lookup_exec_of_evictions_eq (h : s.WF) (pinned : α → Bool) (act : Act α) (k k' : κ)
    (hev : (s.exec pinned act k).evictions = s.evictions) :
    (s.exec pinned act k).lookup k' = s.expected act k k' := by
  obtain ⟨hwf, hlookup⟩ := h.apply_spec act k
  unfold Cache.exec at hev ⊢
  by_cases hevicts : act.evicts
  · rw [if_pos hevicts]
    rw [if_pos hevicts] at hev
    rcases evict_eq_or_lt pinned _ hwf with heq | hlt
    · rw [heq, hlookup]
    · rw [apply_evictions] at hlt
      omega
  · rw [if_neg hevicts]
    exact hlookup k'

section Nodes

variable {P : κ → ℕ → α → Prop} (h : s.WF) (hP : ∀ n ∈ s.order, P n.key n.cost n.val)
include h hP

theorem WF.forall_written {k : κ} {n : Node κ α} (hn : s.find k = some n) {cost : ℕ} {val : α}
    (hval : P k cost val) (clamp front : Bool) :
    ∀ m ∈ (if front then (s.rewrite n cost val clamp).moveToFront n
      else s.rewrite n cost val clamp).order, P m.key m.cost m.val := by
  intro m hm
  have hmem : m ∈ (s.rewrite n cost val clamp).order := by
    cases front with
    | false => exact hm
    | true => exact (moveToFront_perm _ n).mem_iff.mp hm
  rcases (h.mem_rewrite (h.find_mem hn) cost val clamp m).mp hmem with rfl | ⟨hm, -⟩
  · rw [h.find_key hn]
    exact hval
  · exact hP m hm

omit h in
theorem forall_drop (k : κ) : ∀ n ∈ (s.drop k).order, P n.key n.cost n.val := by
  intro m hm
  unfold Cache.drop at hm
  cases hfind : s.find k with
  | none =>
    rw [hfind] at hm
    exact hP m hm
  | some n =>
    rw [hfind] at hm
    exact hP m ((mem_removeElement s n m).mp hm).1

variable {act : Act α} {k : κ} (hact : act.Keeps (P k) (s.lookup k))
include hact

/-- What holds of every node holds after an action that keeps it. -/
theorem WF.forall_apply : ∀ n ∈ (s.apply act k).order, P n.key n.cost n.val := by
  have hfound : ∀ {n : Node κ α}, s.find k = some n → P k n.cost n.val := by
    intro n hn
    have hmem := hP n (h.find_mem hn)
    rwa [h.find_key hn] at hmem
  cases act with
  | keep => exact hP
  | remove => exact forall_drop hP k
  | amend val front =>
    cases hn : s.find k with
    | none =>
      simp only [Cache.apply, hn]
      exact hP
    | some n =>
      simp only [Cache.apply, hn]
      exact h.forall_written hP hn (hact n.cost n.val (lookup_of_find hn) (hfound hn)) _ _
  | write cost val mode =>
    cases hn : s.find k with
    | none =>
      simp only [Cache.apply, hn]
      exact hP
    | some n =>
      simp only [Cache.apply, hn]
      exact h.forall_written hP hn (hact n.cost n.val (lookup_of_find hn) (hfound hn)) _ _
  | insert cost val =>
    intro n hn
    rcases (mem_pushFront _ k cost val n).mp hn with rfl | hn
    · exact hact
    · exact forall_drop hP k n hn

theorem WF.forall_exec (pinned : α → Bool) :
    ∀ n ∈ (s.exec pinned act k).order, P n.key n.cost n.val := by
  have happly := h.forall_apply hP hact
  unfold Cache.exec
  cases act.evicts with
  | true => exact fun n hn => happly n (((h.apply_spec act k).1.evict_spec pinned).1.subset hn)
  | false => exact happly

end Nodes

end Exec

end Cache

end Supercache.Lru
