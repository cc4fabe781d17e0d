import Supercache.LruAction

/-!
When the most recent node survives an eviction. Being first in the list it is
the last candidate, so an unpinned front node goes exactly when it does not fit
beside the pinned nodes, which stay whatever happens.
-/
namespace Supercache.Lru

section Cost

variable {κ α : Type}

theorem cost_le_totalCost {n : Node κ α} {order : List (Node κ α)} (hn : n ∈ order) :
    (n.cost : ℤ) ≤ totalCost order := by
  have hsub := totalCost_sublist (List.singleton_sublist.mpr hn)
  simpa using hsub

end Cost

namespace Cache

variable {κ α : Type} [DecidableEq κ] {s : Cache κ α} {pinned : α → Bool}

/-- Eviction ends within budget or with pinned nodes only. -/
theorem evictLoop_fits (fuel : ℕ) (h : s.WF) (hfuel : s.order.length ≤ fuel) :
    (evictLoop pinned fuel s).bytes ≤ (evictLoop pinned fuel s).maxBytes ∨
      ∀ n ∈ (evictLoop pinned fuel s).order, pinned n.val = true := by
  induction fuel generalizing s with
  | zero =>
    have hnil : s.order = [] := List.eq_nil_of_length_eq_zero (Nat.le_zero.mp hfuel)
    exact Or.inr fun n hn => absurd hn (by simp [evictLoop, hnil])
  | succ fuel ih =>
    unfold evictLoop
    by_cases hover : s.maxBytes < s.bytes ∧ s.order ≠ []
    · rw [if_pos hover]
      rcases hv : lruVictim pinned s with _ | n
      · exact Or.inr fun n hn => pinned_of_lruVictim_eq_none hv hn
      · have hlen := h.length_evictOne hv
        exact ih (h.evictOne hv) (by simp only; omega)
    · rw [if_neg hover]
      rw [not_and_or, not_lt, not_not] at hover
      rcases hover with hle | hnil
      · exact Or.inl hle
      · exact Or.inr fun n hn => absurd hn (by simp [hnil])

/-- After an eviction the total fits the budget, or only pinned nodes are left. -/
theorem WF.evict_fits (h : s.WF) (hmax : 0 < s.maxBytes) :
    (Cache.evict pinned s).bytes ≤ s.maxBytes ∨
      ∀ n ∈ (Cache.evict pinned s).order, pinned n.val = true := by
  have hkeep := evict_maxBytes pinned s h
  unfold Cache.evict at hkeep ⊢
  rw [if_neg (by omega)] at hkeep ⊢
  rw [← hkeep]
  exact evictLoop_fits s.order.length h (Nat.le_refl _)

/-- The pinned nodes are the same before and after an eviction. -/
theorem WF.totalCost_pinned_evict (h : s.WF) :
    totalCost ((Cache.evict pinned s).order.filter fun n => pinned n.val) =
      totalCost (s.order.filter fun n => pinned n.val) := by
  obtain ⟨hsub, hkeep⟩ := h.evict_spec pinned
  refine totalCost_perm ((List.perm_ext_iff_of_nodup ?_ ?_).mpr fun n => ?_)
  · exact (h.evict pinned).order_nodup.filter _
  · exact h.order_nodup.filter _
  · simp only [List.mem_filter]
    exact ⟨fun hn => ⟨hsub.subset hn.1, hn.2⟩, fun hn => ⟨hkeep n hn.1 hn.2, hn.2⟩⟩

variable {n : Node κ α} {rest : List (Node κ α)}

/-- The front node is a victim only when everything else is pinned. -/
theorem WF.eq_of_lruVictim_front (h : s.WF) (horder : s.order = n :: rest)
    (hv : s.lruVictim pinned = some n) : ∀ m ∈ rest, pinned m.val = true := by
  intro m hm
  by_contra hpin
  have hnodup := h.order_nodup
  rw [horder, List.nodup_cons] at hnodup
  unfold lruVictim at hv
  rw [horder, List.reverse_cons, List.find?_append] at hv
  obtain ⟨v, hfind⟩ : ∃ v, rest.reverse.find? (fun m => !pinned m.val) = some v := by
    refine Option.isSome_iff_exists.mp (List.find?_isSome.mpr ⟨m, List.mem_reverse.mpr hm, ?_⟩)
    simpa using hpin
  rw [hfind, Option.some_or, Option.some.injEq] at hv
  exact hnodup.1 (hv ▸ List.mem_reverse.mp (List.mem_of_find?_eq_some hfind))

/-- An unpinned front node survives an eviction exactly when it fits beside the
pinned nodes. -/
theorem WF.front_mem_evict_iff (h : s.WF) (hmax : 0 < s.maxBytes) (horder : s.order = n :: rest)
    (hpin : pinned n.val = false) : n ∈ (Cache.evict pinned s).order ↔
      n.cost + totalCost (rest.filter fun m => pinned m.val) ≤ s.maxBytes := by
  constructor
  · intro hn
    have hfit : (Cache.evict pinned s).bytes ≤ s.maxBytes := by
      refine (h.evict_fits hmax).resolve_right fun hall => ?_
      rw [hall n hn] at hpin
      exact Bool.false_ne_true hpin.symm
    have hsplit := totalCost_filter_add (fun m => pinned m.val) (Cache.evict pinned s).order
    have hcost : (n.cost : ℤ) ≤
        totalCost ((Cache.evict pinned s).order.filter fun m => !pinned m.val) :=
      cost_le_totalCost (List.mem_filter.mpr ⟨hn, by simp [hpin]⟩)
    rw [h.totalCost_pinned_evict, horder, List.filter_cons_of_neg (by simp [hpin]),
      ← (h.evict pinned).bytes_eq] at hsplit
    omega
  · intro hroom
    -- while the front node is there, it is the victim only if everything else is
    -- pinned, and then the total already fits
    refine ((evict_induct (P := fun t => n ∈ t.order ∧ t.order.Sublist s.order ∧
      t.maxBytes = s.maxBytes) ?_ s h ⟨by simp [horder], List.Sublist.refl _, rfl⟩).2).1
    rintro t v ht ⟨hn, hsub, hbudget⟩ hover hv
    refine ⟨(mem_removeElement t v n).mpr ⟨hn, fun hid => ?_⟩, List.filter_sublist.trans hsub,
      hbudget⟩
    obtain rfl : v = n := (ht.eq_of_id_eq hn (mem_of_lruVictim hv) hid).symm
    have hnodup := h.order_nodup
    rw [horder, List.nodup_cons] at hnodup
    obtain ⟨rest', horder', hrest'⟩ : ∃ rest', t.order = v :: rest' ∧ rest'.Sublist rest := by
      rw [horder] at hsub
      rcases List.sublist_cons_iff.mp hsub with hsub | ⟨rest', heq, hsub⟩
      · exact absurd (hsub.subset hn) hnodup.1
      · exact ⟨rest', heq, hsub⟩
    have hall := ht.eq_of_lruVictim_front horder' hv
    have hfilter : rest'.filter (fun m => pinned m.val) = rest' :=
      List.filter_eq_self.mpr hall
    have hle := totalCost_sublist (hrest'.filter fun m => pinned m.val)
    rw [hfilter] at hle
    have hbytes := ht.bytes_eq
    rw [horder', totalCost_cons] at hbytes
    omega

theorem WF.filter_id_ne (h : s.WF) (hn : n ∈ s.order) :
    (s.order.filter fun m => m.id != n.id) = s.order.filter fun m => m.key ≠ n.key := by
  refine List.filter_congr fun m hm => ?_
  have hiff : m.id = n.id ↔ m.key = n.key :=
    ⟨fun hid => congrArg Node.key (h.eq_of_id_eq hm hn hid),
      fun hkey => congrArg Node.id (h.eq_of_key_eq hm hn hkey)⟩
  simp only [bne, beq_eq_decide, hiff, ne_eq, decide_not]

theorem WF.order_drop (h : s.WF) (k : κ) :
    (s.drop k).order = s.order.filter fun m => m.key ≠ k := by
  unfold Cache.drop
  rcases hn : s.find k with _ | n
  · have hne := (h.find_eq_none_iff k).mp hn
    exact (List.filter_eq_self.mpr fun m hm => decide_eq_true (hne m hm)).symm
  · obtain ⟨hmem, rfl⟩ := (h.find_eq_some_iff k n).mp hn
    exact h.filter_id_ne hmem

theorem WF.order_rewrite_moveToFront (h : s.WF) (hn : n ∈ s.order) (cost : ℕ) (val : α)
    (clamp : Bool) : ((s.rewrite n cost val clamp).moveToFront n).order =
      { n with cost := cost, val := val } :: s.order.filter fun m => m.key ≠ n.key := by
  have hid : ∀ m : Node κ α,
      (if m.id = n.id then { m with cost := cost, val := val } else m).id = m.id := by
    intro m
    split <;> rfl
  simp only [Cache.moveToFront, Cache.rewrite, charge, overwrite, List.filter_map,
    Function.comp_def, hid]
  rw [h.filter_id_eq hn, ← h.filter_id_ne hn]
  simp only [List.map_cons, List.map_nil, if_true, List.cons_append, List.nil_append]
  refine congrArg _ ((List.map_congr_left fun m hm => if_neg ?_).trans (List.map_id _))
  simpa using (List.mem_filter.mp hm).2

inductive Act.Fronts (present : Bool) (cost : ℕ) (val : α) : Act α → Prop
  | insert : Fronts present cost val (.insert cost val)
  | write (clamp : Bool) (h : present = true) :
    Fronts present cost val (.write cost val ⟨clamp, true, true⟩)

variable {k : κ} {cost : ℕ} {val : α} {act : Act α}

theorem WF.apply_front (h : s.WF) (hact : Act.Fronts (s.find k).isSome cost val act) :
    ∃ n : Node κ α, n.key = k ∧ n.cost = cost ∧ n.val = val ∧
      (s.apply act k).order = n :: s.order.filter fun m => m.key ≠ k := by
  cases hact with
  | insert => exact ⟨_, rfl, rfl, rfl, congrArg _ (h.order_drop k)⟩
  | write clamp hsome =>
    obtain ⟨n, hn⟩ := Option.isSome_iff_exists.mp hsome
    obtain ⟨hmem, rfl⟩ := (h.find_eq_some_iff k n).mp hn
    refine ⟨{ n with cost := cost, val := val }, rfl, rfl, rfl, ?_⟩
    simp only [Cache.apply, hn, if_true]
    exact h.order_rewrite_moveToFront hmem cost val clamp

/-- What is put at the front stays if there is no budget, if it is pinned, or if
it fits beside the pinned values of the other keys, and not otherwise. -/
theorem WF.lookup_exec_front_iff (h : s.WF) (pinned : α → Bool)
    (hact : Act.Fronts (s.find k).isSome cost val act) : (s.exec pinned act k).lookup k = some val ↔
      s.maxBytes ≤ 0 ∨ pinned val = true ∨
        cost + totalCost (s.order.filter fun m => m.key ≠ k && pinned m.val) ≤ s.maxBytes := by
  obtain ⟨n, rfl, rfl, rfl, horder⟩ := h.apply_front hact
  obtain ⟨hwf, -⟩ := h.apply_spec act n.key
  have hfind : (s.apply act n.key).find n.key = some n :=
    (hwf.find_eq_some_iff _ _).mpr ⟨by simp [horder], rfl⟩
  have hexec : s.exec pinned act n.key = Cache.evict pinned (s.apply act n.key) := by
    unfold Cache.exec
    cases hact <;> rfl
  have hmem : (s.exec pinned act n.key).lookup n.key = some n.val ↔
      n ∈ (Cache.evict pinned (s.apply act n.key)).order := by
    rw [hexec]
    have hwf' := hwf.evict pinned
    constructor
    · intro hlook
      rcases hwf.find_evict pinned n.key with heq | ⟨hnone, -⟩
      · exact hwf'.find_mem (heq.trans hfind)
      · simp [lookup, hnone] at hlook
    · intro hn
      simp [lookup, (hwf'.find_eq_some_iff n.key n).mpr ⟨hn, rfl⟩]
  rw [hmem]
  by_cases hmax : s.maxBytes ≤ 0
  · simp [evict_of_unbounded pinned (s.apply act n.key) (by simpa using hmax), horder, hmax]
  · cases hpin : pinned n.val with
    | true => simpa using (hwf.evict_spec pinned).2 n (by simp [horder]) hpin
    | false =>
      rw [hwf.front_mem_evict_iff (by rw [apply_maxBytes]; omega) horder hpin, apply_maxBytes,
        List.filter_filter]
      simp [hmax, Bool.and_comm]

end Cache

end Supercache.Lru
