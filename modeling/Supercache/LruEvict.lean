import Supercache.Lru

/-!
Eviction under a byte budget. The victim is the least recent node that the
caller does not pin; the loop stops when the total fits or only pinned nodes
are left. A loop pass unlinks one node, so the list length bounds the passes.
-/
namespace Supercache.Lru

namespace Cache

variable {κ α : Type}

def lruVictim (pinned : α → Bool) (s : Cache κ α) : Option (Node κ α) :=
  s.order.reverse.find? fun n => !pinned n.val

variable [DecidableEq κ]

def evictLoop (pinned : α → Bool) : ℕ → Cache κ α → Cache κ α
  | 0, s => s
  | fuel + 1, s =>
    if s.maxBytes < s.bytes ∧ s.order ≠ [] then
      match s.lruVictim pinned with
      | none => s
      | some n =>
        evictLoop pinned fuel { s.removeElement n with evictions := s.evictions + 1 }
    else s

def evict (pinned : α → Bool) (s : Cache κ α) : Cache κ α :=
  if s.maxBytes ≤ 0 then s else evictLoop pinned s.order.length s

section Step

variable {s : Cache κ α} {pinned : α → Bool} {n : Node κ α}

omit [DecidableEq κ] in
theorem mem_of_lruVictim (h : s.lruVictim pinned = some n) : n ∈ s.order :=
  List.mem_reverse.mp (List.mem_of_find?_eq_some h)

omit [DecidableEq κ] in
theorem not_pinned_of_lruVictim (h : s.lruVictim pinned = some n) : pinned n.val = false := by
  simpa using List.find?_some h

omit [DecidableEq κ] in
theorem pinned_of_lruVictim_eq_none (h : s.lruVictim pinned = none) {m : Node κ α}
    (hm : m ∈ s.order) : pinned m.val = true := by
  simpa using List.find?_eq_none.mp h m (List.mem_reverse.mpr hm)

theorem WF.evictOne (h : s.WF) (hv : s.lruVictim pinned = some n) :
    ({ s.removeElement n with evictions := s.evictions + 1 } : Cache κ α).WF := by
  obtain ⟨hids, hlt, hlookup, hbytes⟩ := h.removeElement (mem_of_lruVictim hv)
  exact ⟨hids, hlt, hlookup, hbytes⟩

theorem WF.length_evictOne (h : s.WF) (hv : s.lruVictim pinned = some n) :
    (s.removeElement n).order.length + 1 = s.order.length := by
  have hperm := (List.filter_append_perm (fun m => m.id == n.id) s.order).length_eq
  rw [List.length_append, h.filter_id_eq (mem_of_lruVictim hv)] at hperm
  simp only [List.length_singleton] at hperm
  simp only [Cache.removeElement, bne]
  omega

end Step

variable {s : Cache κ α} {pinned : α → Bool} {P : Cache κ α → Prop}

section

variable
  (hstep : ∀ s n, s.WF → P s → s.maxBytes < s.bytes → s.lruVictim pinned = some n →
  P { s.removeElement n with evictions := s.evictions + 1 })
include hstep

/-- Induction along the evictions: what one eviction preserves, the loop preserves. -/
theorem evictLoop_induct (fuel : ℕ) (s : Cache κ α)
    (h : s.WF) (hP : P s) : (evictLoop pinned fuel s).WF ∧ P (evictLoop pinned fuel s) := by
  induction fuel generalizing s with
  | zero => exact ⟨h, hP⟩
  | succ fuel ih =>
    unfold evictLoop
    by_cases hover : s.maxBytes < s.bytes ∧ s.order ≠ []
    · rw [if_pos hover]
      rcases hv : lruVictim pinned s with _ | n
      · exact ⟨h, hP⟩
      · exact ih _ (h.evictOne hv) (hstep s n h hP hover.1 hv)
    · rw [if_neg hover]
      exact ⟨h, hP⟩

theorem evict_induct (s : Cache κ α) (h : s.WF)
    (hP : P s) : (evict pinned s).WF ∧ P (evict pinned s) := by
  unfold evict
  split
  · exact ⟨h, hP⟩
  · exact evictLoop_induct hstep _ s h hP

end

theorem WF.evict (h : s.WF) (pinned : α → Bool) : (evict pinned s).WF :=
  (evict_induct (P := fun _ => True) (fun _ _ _ _ _ _ => trivial) s h trivial).1

section

variable (pinned : α → Bool) (s : Cache κ α)

theorem evict_of_unbounded (h : s.maxBytes ≤ 0) :
    evict pinned s = s := by
  simp [evict, h]

@[simp]
theorem evict_maxBytes (h : s.WF) :
    (evict pinned s).maxBytes = s.maxBytes :=
  (evict_induct (P := fun t => t.maxBytes = s.maxBytes) (fun _ _ _ hP _ _ => hP) s h rfl).2

/-- An eviction that does something is counted. -/
theorem evict_eq_or_lt (h : s.WF) :
    evict pinned s = s ∨ s.evictions < (evict pinned s).evictions := by
  refine (evict_induct (P := fun t => t = s ∨ s.evictions < t.evictions) ?_ s h (Or.inl rfl)).2
  rintro t n - (rfl | hlt) - -
  · exact Or.inr (Nat.lt_succ_self _)
  · exact Or.inr (Nat.lt_succ_of_lt hlt)

end

/-- Eviction only drops nodes, keeps their order, and never drops a pinned one. -/
theorem WF.evict_spec (h : s.WF) (pinned : α → Bool) :
    (Cache.evict pinned s).order.Sublist s.order ∧
      ∀ n ∈ s.order, pinned n.val = true → n ∈ (Cache.evict pinned s).order := by
  refine (evict_induct
    (P := fun t => t.order.Sublist s.order ∧ ∀ n ∈ s.order, pinned n.val = true → n ∈ t.order)
    ?_ s h ⟨List.Sublist.refl _, fun _ hn _ => hn⟩).2
  rintro t n ht ⟨hsub, hkeep⟩ - hv
  refine ⟨List.filter_sublist.trans hsub, fun m hm hpin => ?_⟩
  rw [mem_removeElement]
  refine ⟨hkeep m hm hpin, fun hid => ?_⟩
  have hmn := ht.eq_of_id_eq (hkeep m hm hpin) (mem_of_lruVictim hv) hid
  rw [hmn, not_pinned_of_lruVictim hv] at hpin
  exact Bool.false_ne_true hpin

/-- A key is found after eviction as before, or its unpinned node is gone. -/
theorem WF.find_evict (h : s.WF) (pinned : α → Bool) (k : κ) :
    (Cache.evict pinned s).find k = s.find k ∨
      (Cache.evict pinned s).find k = none ∧ ∃ n, s.find k = some n ∧ pinned n.val = false := by
  have hwf := h.evict pinned
  obtain ⟨hsub, hkeep⟩ := h.evict_spec pinned
  cases hf : s.find k with
  | none =>
    rw [h.find_eq_none_iff] at hf
    exact Or.inl ((hwf.find_eq_none_iff k).mpr fun n hn => hf n (hsub.subset hn))
  | some n =>
    obtain ⟨hn, hkey⟩ := (h.find_eq_some_iff k n).mp hf
    by_cases hmem : n ∈ (Cache.evict pinned s).order
    · exact Or.inl ((hwf.find_eq_some_iff k n).mpr ⟨hmem, hkey⟩)
    · refine Or.inr ⟨(hwf.find_eq_none_iff k).mpr fun m hm hmk => ?_, n, rfl, ?_⟩
      · rw [h.eq_of_key_eq (hsub.subset hm) hn (hmk.trans hkey.symm)] at hm
        exact hmem hm
      · exact Bool.eq_false_iff.mpr fun hpin => hmem (hkeep n hn hpin)

section Prefix

variable {s : Cache κ α} {pinned : α → Bool} {n : Node κ α}

def candidates (pinned : α → Bool) (s : Cache κ α) : List (Node κ α) :=
  s.order.reverse.filter fun n => !pinned n.val

/-- The first `k` candidates are the fewest that make the total fit, or all there are. -/
structure Shortest (pinned : α → Bool) (s : Cache κ α) (k : ℕ) : Prop where
  le : k ≤ (s.candidates pinned).length
  exceeds : ∀ j < k, s.maxBytes < s.bytes - totalCost ((s.candidates pinned).take j)
  fits : s.bytes - totalCost ((s.candidates pinned).take k) ≤ s.maxBytes ∨
    k = (s.candidates pinned).length

/-- The cache without its first `k` candidates: the others are as they were, in the same
order. -/
structure Without (pinned : α → Bool) (s : Cache κ α) (k : ℕ) (t : Cache κ α) : Prop where
  order : t.order =
    s.order.filter fun n => decide (n.id ∉ ((s.candidates pinned).take k).map Node.id)
  bytes : t.bytes = s.bytes - totalCost ((s.candidates pinned).take k)
  evictions : t.evictions = s.evictions + k

omit [DecidableEq κ] in
theorem without_zero (s : Cache κ α) : Without pinned s 0 s where
  order := by simp
  bytes := by simp
  evictions := rfl

omit [DecidableEq κ] in
theorem head?_candidates : (s.candidates pinned).head? = s.lruVictim pinned :=
  List.head?_filter ..

/-- Evicting the victim leaves the other candidates, in their order. -/
theorem WF.candidates_evictOne (h : s.WF) (hv : s.lruVictim pinned = some n) :
    s.candidates pinned = n :: (s.removeElement n).candidates pinned := by
  have hhead : (s.candidates pinned).head? = some n := head?_candidates.trans hv
  obtain ⟨rest, hrest⟩ := List.head?_eq_some_iff.mp hhead
  have hnodup : (s.candidates pinned).map Node.id |>.Nodup := by
    refine List.Nodup.sublist (List.filter_sublist.map _) ?_
    rw [List.map_reverse, List.nodup_reverse]
    exact h.ids_nodup
  rw [hrest, List.map_cons, List.nodup_cons] at hnodup
  have hfilter : (s.removeElement n).candidates pinned =
      (s.candidates pinned).filter fun m => m.id != n.id := by
    simp only [candidates, Cache.removeElement, ← List.filter_reverse, List.filter_filter]
    exact List.filter_congr fun m _ => Bool.and_comm ..
  rw [hfilter, hrest, List.filter_cons_of_neg (by simp)]
  refine congrArg (n :: ·) (List.filter_eq_self.mpr fun m hm => ?_).symm
  have hne : m.id ≠ n.id := fun hid => hnodup.1 (List.mem_map.mpr ⟨m, hm, hid⟩)
  simpa using hne

theorem WF.bytes_evictOne (h : s.WF) (hv : s.lruVictim pinned = some n) :
    (s.removeElement n).bytes = s.bytes - n.cost := by
  rw [(h.removeElement (mem_of_lruVictim hv)).bytes_eq]
  exact h.totalCost_remove (mem_of_lruVictim hv)

variable {k fuel : ℕ}

/-- One eviction more. -/
theorem WF.without_succ (h : s.WF) (hv : s.lruVictim pinned = some n) {t : Cache κ α}
    (ht : Without pinned { s.removeElement n with evictions := s.evictions + 1 } k t) :
    Without pinned s (k + 1) t := by
  have hcands := h.candidates_evictOne hv
  have hbytes := h.bytes_evictOne hv
  refine ⟨?_, ?_, ?_⟩
  · have horder : t.order = (s.order.filter fun m => m.id != n.id).filter fun m =>
        decide (m.id ∉ (((s.removeElement n).candidates pinned).take k).map Node.id) := ht.order
    rw [horder, hcands, List.filter_filter]
    refine List.filter_congr fun m _ => ?_
    by_cases hmn : m.id = n.id <;> simp [hmn]
  · have hrest := ht.bytes
    rw [hcands, List.take_succ_cons, totalCost_cons, hrest, hbytes]
    change _ - totalCost (((s.removeElement n).candidates pinned).take k) = _
    omega
  · have hcount := ht.evictions
    dsimp only at hcount
    omega

theorem WF.shortest_succ (h : s.WF) (hv : s.lruVictim pinned = some n)
    (hover : s.maxBytes < s.bytes)
    (hk : Shortest pinned { s.removeElement n with evictions := s.evictions + 1 } k) :
    Shortest pinned s (k + 1) := by
  have hcands := h.candidates_evictOne hv
  have hbytes := h.bytes_evictOne hv
  obtain ⟨hle, hlt, hfits⟩ := hk
  refine ⟨?_, ?_, ?_⟩
  · rw [hcands, List.length_cons]
    exact Nat.succ_le_succ hle
  · intro j hj
    cases j with
    | zero => simpa using hover
    | succ j =>
      have hrest := hlt j (Nat.lt_of_succ_lt_succ hj)
      rw [hbytes] at hrest
      rw [hcands, List.take_succ_cons, totalCost_cons]
      change s.maxBytes < _ - totalCost (((s.removeElement n).candidates pinned).take j) at hrest
      omega
  · rw [hcands, List.take_succ_cons, totalCost_cons, List.length_cons]
    refine hfits.imp (fun hrest => ?_) fun heq => congrArg (· + 1) heq
    rw [hbytes] at hrest
    change _ - totalCost (((s.removeElement n).candidates pinned).take k) ≤ s.maxBytes at hrest
    omega

/-- The loop removes the shortest sufficient run of candidates. -/
theorem WF.evictLoop_shortest (h : s.WF) (hfuel : s.order.length ≤ fuel) :
    ∃ k, Shortest pinned s k ∧ Without pinned s k (evictLoop pinned fuel s) := by
  induction fuel generalizing s with
  | zero =>
    have hnil : s.order = [] := List.eq_nil_of_length_eq_zero (Nat.le_zero.mp hfuel)
    exact ⟨0, ⟨Nat.zero_le _, nofun, Or.inr (by simp [candidates, hnil])⟩, without_zero s⟩
  | succ fuel ih =>
    unfold evictLoop
    by_cases hover : s.maxBytes < s.bytes ∧ s.order ≠ []
    · rw [if_pos hover]
      rcases hv : lruVictim pinned s with _ | n
      · have hempty : s.candidates pinned = [] := by
          rw [← List.head?_eq_none_iff, head?_candidates, hv]
        exact ⟨0, ⟨Nat.zero_le _, nofun, Or.inr (by simp [hempty])⟩, without_zero s⟩
      · have hlen := h.length_evictOne hv
        obtain ⟨k, hk, ht⟩ := ih (h.evictOne hv) (by simp only; omega)
        exact ⟨k + 1, h.shortest_succ hv hover.1 hk, h.without_succ hv ht⟩
    · rw [if_neg hover]
      refine ⟨0, ⟨Nat.zero_le _, nofun, ?_⟩, without_zero s⟩
      rw [not_and_or, not_lt, not_not] at hover
      rcases hover with hle | hnil
      · exact Or.inl (by simpa using hle)
      · exact Or.inr (by simp [candidates, hnil])

/-- As many passes as there are nodes are enough. -/
theorem WF.evictLoop_of_le (h : s.WF) (hfuel : s.order.length ≤ fuel) :
    evictLoop pinned fuel s = evictLoop pinned s.order.length s := by
  induction fuel generalizing s with
  | zero => rw [Nat.le_zero.mp hfuel]
  | succ fuel ih =>
    cases hlen : s.order.length with
    | zero =>
      have hnil : s.order = [] := List.eq_nil_of_length_eq_zero hlen
      simp [evictLoop, hnil]
    | succ k =>
      unfold evictLoop
      split
      · split
        · rfl
        next n hv =>
          have hone := h.length_evictOne hv
          rw [ih (h.evictOne hv) (by simp only; omega)]
          have hk : k = (s.removeElement n).order.length := by omega
          rw [hk]
      · rfl

end Prefix

end Cache

end Supercache.Lru
