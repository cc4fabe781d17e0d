import Supercache.LruAction

/-!
Recency lists that differ in their values only. Two actions are alike when they do the same to the
list and write related values; one of them may also note something in a value. Alike actions keep
the lists the same but for related values, evictions included.
-/
namespace Supercache.Lru

/-- `Q` relates the values that are written, `spent` holds of the cost the node
already has, and `old'` is what the second action finds. -/
inductive Act.Like {α β : Type} (Q : α → β → Prop) (spent : ℕ → Prop) (old' : Option β) :
    Act α → Act β → Prop
  | keep : Like Q spent old' .keep .keep
  | remove : Like Q spent old' .remove .remove
  | amend (val : α) (val' : β) (front : Bool) (h : Q val val') :
    Like Q spent old' (.amend val front) (.amend val' front)
  | write (cost : ℕ) (val : α) (val' : β) (mode : WriteMode) (h : Q val val') :
    Like Q spent old' (.write cost val mode) (.write cost val' mode)
  | insert (cost : ℕ) (val : α) (val' : β) (h : Q val val') :
    Like Q spent old' (.insert cost val) (.insert cost val')
  | noted (val : α) (b : β) (hold : old' = some b) (h : Q val b) :
    Like Q spent old' (.amend val false) .keep
  | settled (cost : ℕ) (val : α) (val' : β) (front : Bool) (hspent : spent cost) (h : Q val val') :
    Like Q spent old' (.write cost val ⟨true, front, false⟩) (.amend val' front)

variable {α β : Type} {Q : α → β → Prop} {spent : ℕ → Prop} {old' : Option β} {act : Act α}
  {act' : Act β}

/-- Alike actions on related values leave related values. -/
theorem Act.Like.result {old : Option α} (h : Act.Like Q spent old' act act')
    (hold : Option.Rel Q old old') : Option.Rel Q (act.result old) (act'.result old') := by
  cases h with
  | keep => exact hold
  | remove => exact .none
  | insert cost val val' h => exact .some h
  | amend val val' front h =>
    cases hold with
    | none => exact .none
    | some => exact .some h
  | write cost val val' mode h =>
    cases hold with
    | none => exact .none
    | some => exact .some h
  | noted val b hb h =>
    cases hold with
    | none => exact .none
    | some =>
      rw [Act.result, Act.result, hb]
      exact .some h
  | settled cost val val' front hspent h =>
    cases hold with
    | none => exact .none
    | some => exact .some h

theorem Act.Like.evicts (h : Act.Like Q spent old' act act') : act'.evicts = act.evicts := by
  cases h <;> rfl

theorem Act.Like.mono {P : α → β → Prop} {spent' : ℕ → Prop} (h : Act.Like Q spent old' act act')
    (hQP : ∀ a b, Q a b → P a b) (hspent : ∀ cost, spent cost → spent' cost) :
    Act.Like P spent' old' act act' := by
  cases h with
  | keep => exact .keep
  | remove => exact .remove
  | amend val val' front h => exact .amend val val' front (hQP _ _ h)
  | write cost val val' mode h => exact .write cost val val' mode (hQP _ _ h)
  | insert cost val val' h => exact .insert cost val val' (hQP _ _ h)
  | noted val b hold h => exact .noted val b hold (hQP _ _ h)
  | settled cost val val' front hcost h =>
    exact .settled cost val val' front (hspent cost hcost) (hQP _ _ h)

theorem isSome_of_rel {R : α → β → Prop} {x : Option α} {y : Option β} (h : Option.Rel R x y) :
    y.isSome = x.isSome := by
  cases h <;> rfl

def Node.map {κ α β : Type} (f : α → β) (n : Node κ α) : Node κ β := ⟨n.id, n.key, n.cost, f n.val⟩

namespace Cache

variable {κ α β : Type}

def map (f : α → β) (s : Cache κ α) : Cache κ β where
  maxBytes := s.maxBytes
  bytes := s.bytes
  items := s.items
  order := s.order.map (Node.map f)
  fresh := s.fresh
  evictions := s.evictions

theorem totalCost_map (f : α → β) (order : List (Node κ α)) :
    totalCost (order.map (Node.map f)) = totalCost order := by
  simp only [totalCost, List.map_map]
  rfl

section

variable (f : α → β) (s : Cache κ α) (n : Node κ α)

theorem overwrite_map (cost : ℕ) (val : α) :
    (s.overwrite n cost val).map f = (s.map f).overwrite (n.map f) cost (f val) := by
  simp only [overwrite, map, List.map_map, Cache.mk.injEq, true_and, and_true]
  refine List.map_congr_left fun m _ => ?_
  rw [Function.comp_apply, Function.comp_apply]
  by_cases hid : m.id = n.id
  · rw [if_pos hid, if_pos (show (m.map f).id = (n.map f).id from hid)]
    rfl
  · rw [if_neg hid, if_neg (show ¬ (m.map f).id = (n.map f).id from hid)]

theorem rewrite_map (cost : ℕ) (val : α) (clamp : Bool) :
    (s.rewrite n cost val clamp).map f = (s.map f).rewrite (n.map f) cost (f val) clamp := by
  rw [rewrite, rewrite, ← overwrite_map]
  rfl

theorem moveToFront_map :
    (s.moveToFront n).map f = (s.map f).moveToFront (n.map f) := by
  simp only [moveToFront, map, List.map_append, List.filter_map]
  rfl

end

theorem pushFront_map [DecidableEq κ] (f : α → β) (s : Cache κ α) (k : κ) (cost : ℕ) (val : α) :
    (s.pushFront k cost val).map f = (s.map f).pushFront k cost (f val) := rfl

variable [DecidableEq κ]

theorem removeElement_map (f : α → β) (s : Cache κ α) (n : Node κ α) :
    (s.removeElement n).map f = (s.map f).removeElement (n.map f) := by
  simp only [removeElement, map, List.filter_map]
  rfl

theorem WF.map {s : Cache κ α} (h : s.WF) (f : α → β) : (s.map f).WF where
  ids_nodup := by
    have hids : (s.order.map (Node.map f)).map Node.id = s.order.map Node.id := by
      rw [List.map_map]
      rfl
    rw [Cache.map, hids]
    exact h.ids_nodup
  id_lt := by
    intro n hn
    obtain ⟨m, hm, rfl⟩ := List.mem_map.mp hn
    exact h.id_lt m hm
  lookup_iff := by
    intro k id
    refine (h.lookup_iff k id).trans ⟨?_, ?_⟩
    · rintro ⟨n, hn, hkey, hid⟩
      exact ⟨n.map f, List.mem_map.mpr ⟨n, hn, rfl⟩, hkey, hid⟩
    · rintro ⟨n, hn, hkey, hid⟩
      obtain ⟨m, hm, rfl⟩ := List.mem_map.mp hn
      exact ⟨m, hm, hkey, hid⟩
  bytes_eq := h.bytes_eq.trans (totalCost_map f s.order).symm

section

variable (f : α → β) (s : Cache κ α) (k : κ)

theorem find_map :
    (s.map f).find k = (s.find k).map (Node.map f) := by
  simp only [find, map]
  split
  · rfl
  · rw [List.find?_map]
    rfl

theorem lookup_map :
    (s.map f).lookup k = (s.lookup k).map f := by
  simp only [lookup, find_map, Option.map_map]
  rfl

theorem drop_map : (s.drop k).map f = (s.map f).drop k := by
  simp only [drop, find_map]
  cases s.find k with
  | none => rfl
  | some n => exact removeElement_map f s n

end

section Evict

variable {pinned : α → Bool} {pinned' : β → Bool} {f : α → β}

variable (hpin : ∀ a, pinned' (f a) = pinned a)
include hpin

omit [DecidableEq κ] in
theorem lruVictim_map (s : Cache κ α) :
    (s.map f).lruVictim pinned' = (s.lruVictim pinned).map (Node.map f) := by
  have hsame : ((fun n : Node κ β => !pinned' n.val) ∘ Node.map f) =
      fun n : Node κ α => !pinned n.val := by
    funext n
    simp only [Function.comp_apply, Node.map, hpin]
  simp only [lruVictim, map]
  rw [← List.map_reverse, List.find?_map, hsame]

/-- Eviction looks at costs and pins, not at values. -/
theorem evictLoop_map (fuel : ℕ) (s : Cache κ α) :
    (evictLoop pinned fuel s).map f = evictLoop pinned' fuel (s.map f) := by
  induction fuel generalizing s with
  | zero => rfl
  | succ fuel ih =>
    have hne : (s.map f).order ≠ [] ↔ s.order ≠ [] := by simp [map]
    by_cases hgo : s.maxBytes < s.bytes ∧ s.order ≠ []
    · have hgo' : (s.map f).maxBytes < (s.map f).bytes ∧ (s.map f).order ≠ [] :=
        ⟨hgo.1, hne.mpr hgo.2⟩
      rw [evictLoop, evictLoop, if_pos hgo, if_pos hgo', lruVictim_map hpin]
      cases s.lruVictim pinned with
      | none => rfl
      | some n =>
        simp only [Option.map_some]
        rw [ih, ← removeElement_map]
        rfl
    · have hgo' : ¬ ((s.map f).maxBytes < (s.map f).bytes ∧ (s.map f).order ≠ []) :=
        fun h => hgo ⟨h.1, hne.mp h.2⟩
      rw [evictLoop, evictLoop, if_neg hgo, if_neg hgo']

theorem evict_map (s : Cache κ α) :
    (evict pinned s).map f = evict pinned' (s.map f) := by
  have hlen : (s.map f).order.length = s.order.length := List.length_map _
  unfold evict
  rw [hlen]
  by_cases hmax : s.maxBytes ≤ 0
  · rw [if_pos hmax]
    rw [if_pos (show (s.map f).maxBytes ≤ 0 from hmax)]
  · rw [if_neg hmax]
    rw [if_neg (show ¬ (s.map f).maxBytes ≤ 0 from hmax)]
    exact evictLoop_map hpin _ s

end Evict

section Exec

variable {s : Cache κ α} {f : α → β} {k : κ} {act : Act α} {act' : Act β}

def Spent (s : Cache κ α) (k : κ) (cost : ℕ) : Prop := ∀ n, s.find k = some n → n.cost = cost

theorem rewrite_clamp (h : s.WF) (n : Node κ α) (val : α) :
    s.rewrite n n.cost val true = s.rewrite n n.cost val false := by
  have hnonneg := h.bytes_nonneg
  simp only [rewrite, charge, overwrite, Cache.mk.injEq, true_and, and_true, sub_self, add_zero]
  rw [if_neg (by omega), if_neg (by simp)]

/-- A node rewritten to what it is. -/
theorem WF.rewrite_self (h : s.WF) {n : Node κ α} (hn : n ∈ s.order) :
    s.rewrite n n.cost n.val false = s := by
  have horder : (s.order.map fun m =>
      if m.id = n.id then { m with cost := n.cost, val := n.val } else m) = s.order := by
    refine (List.map_congr_left fun m hm => ?_).trans (List.map_id _)
    by_cases hid : m.id = n.id
    · rw [if_pos hid]
      rw [h.eq_of_id_eq hm hn hid]
      rfl
    · rw [if_neg hid]
      rfl
  simp [Cache.rewrite, charge, overwrite, horder]

omit [DecidableEq κ] in
theorem rewriteFront_map (n : Node κ α) (cost : ℕ) (val : α) (clamp front : Bool) :
    Cache.map f (if front then (s.rewrite n cost val clamp).moveToFront n
      else s.rewrite n cost val clamp) =
    if front then ((s.map f).rewrite (n.map f) cost (f val) clamp).moveToFront (n.map f)
    else (s.map f).rewrite (n.map f) cost (f val) clamp := by
  cases front with
  | false => exact rewrite_map f s n cost val clamp
  | true =>
    rw [if_pos rfl, if_pos rfl, moveToFront_map, rewrite_map]

/-- Alike actions on a list and on its image. -/
theorem WF.apply_map (h : s.WF)
    (hlike : Act.Like (fun a b => b = f a) (s.Spent k) ((s.lookup k).map f) act act') :
    (s.apply act k).map f = (s.map f).apply act' k := by
  cases hlike with
  | keep => rfl
  | remove => exact drop_map f s k
  | amend val val' front hval =>
    subst hval
    simp only [apply, find_map]
    cases s.find k with
    | none => rfl
    | some n => exact rewriteFront_map n n.cost val false front
  | write cost val val' mode hval =>
    subst hval
    simp only [apply, find_map]
    cases s.find k with
    | none => rfl
    | some n => exact rewriteFront_map n cost val mode.clamp mode.front
  | insert cost val val' hval =>
    subst hval
    simp only [apply]
    rw [pushFront_map, drop_map]
  | noted val b hold hval =>
    simp only [apply]
    cases hn : s.find k with
    | none => rfl
    | some n =>
      have hb : f n.val = f val := by
        rw [lookup, hn] at hold
        exact (Option.some.inj hold).trans hval
      have hself := (h.map f).rewrite_self (List.mem_map_of_mem (h.find_mem hn))
      simp only [Bool.false_eq_true, if_false]
      rw [rewrite_map, ← hb]
      exact hself
  | settled cost val val' front hspent hval =>
    subst hval
    simp only [apply, find_map]
    cases hn : s.find k with
    | none => rfl
    | some n =>
      rw [← hspent n hn]
      simp only [Option.map_some]
      rw [rewrite_clamp h]
      exact rewriteFront_map n n.cost val false front

/-- Alike actions keep the second list the image of the first. -/
theorem WF.exec_map (h : s.WF) {pinned : α → Bool} {pinned' : β → Bool}
    (hpin : ∀ a, pinned' (f a) = pinned a)
    (hlike : Act.Like (fun a b => b = f a) (s.Spent k) ((s.lookup k).map f) act act') :
    (s.exec pinned act k).map f = (s.map f).exec pinned' act' k := by
  have hevicts := hlike.evicts
  unfold Cache.exec
  rw [hevicts]
  split
  · rw [evict_map hpin, h.apply_map hlike]
  · exact h.apply_map hlike

end Exec

section Alike

/-- The same list with related values: both are images of one list of related pairs. -/
def Alike (R : α → β → Prop) (s : Cache κ α) (s' : Cache κ β) : Prop :=
  ∃ p : Cache κ {q : α × β // R q.1 q.2},
    p.WF ∧ p.map (fun q => q.1.1) = s ∧ p.map (fun q => q.1.2) = s'

variable {R : α → β → Prop} {s : Cache κ α} {s' : Cache κ β}

omit [DecidableEq κ] in
theorem map_map {γ : Type} (f : α → β) (g : β → γ) (s : Cache κ α) :
    (s.map f).map g = s.map (g ∘ f) := by
  simp only [map, List.map_map, Cache.mk.injEq, true_and, and_true]
  rfl

omit [DecidableEq κ] in
theorem map_id (s : Cache κ α) : s.map id = s := by
  have hid : (Node.map id : Node κ α → Node κ α) = id := rfl
  simp only [map, hid, List.map_id]

theorem WF.alike_self {R : α → α → Prop} (h : s.WF) (hR : ∀ a, R a a) : Alike R s s :=
  ⟨s.map fun a => ⟨(a, a), hR a⟩, h.map _, (map_map _ _ s).trans (map_id s),
    (map_map _ _ s).trans (map_id s)⟩

theorem Alike.mono {P : α → β → Prop} (h : Alike R s s') (hRP : ∀ a b, R a b → P a b) :
    Alike P s s' := by
  obtain ⟨p, hwf, hs, hs'⟩ := h
  refine ⟨p.map fun q => ⟨q.1, hRP _ _ q.2⟩, hwf.map _, ?_, ?_⟩
  · rw [map_map]
    exact hs
  · rw [map_map]
    exact hs'

variable (h : Alike R s s')
include h

theorem Alike.maxBytes_eq : s'.maxBytes = s.maxBytes := by
  obtain ⟨p, -, rfl, rfl⟩ := h
  rfl

theorem Alike.bytes_eq : s'.bytes = s.bytes := by
  obtain ⟨p, -, rfl, rfl⟩ := h
  rfl

theorem Alike.lookup (k : κ) : Option.Rel R (s.lookup k) (s'.lookup k) := by
  obtain ⟨p, -, rfl, rfl⟩ := h
  rw [lookup_map, lookup_map]
  cases p.lookup k with
  | none => exact .none
  | some q => exact .some q.2

/-- Alike actions on alike lists, with evictions that spare related values alike. -/
theorem Alike.exec {k : κ} {spent : ℕ → Prop} {act : Act α} {act' : Act β}
    (hlike : Act.Like R spent (s'.lookup k) act act')
    (hspent : ∀ cost, spent cost → s.Spent k cost) {pinned : α → Bool} {pinned' : β → Bool}
    (hpin : ∀ a b, R a b → pinned' b = pinned a) :
    Alike R (s.exec pinned act k) (s'.exec pinned' act' k) := by
  obtain ⟨p, hwf, rfl, rfl⟩ := h
  rw [lookup_map] at hlike
  -- one action on the pairs does both
  have hpair : ∃ both : Act {q : α × β // R q.1 q.2},
      Act.Like (fun q a => a = q.1.1) (p.Spent k) ((p.lookup k).map fun q => q.1.1) both act ∧
      Act.Like (fun q b => b = q.1.2) (p.Spent k) ((p.lookup k).map fun q => q.1.2) both act' := by
    cases hlike with
    | keep => exact ⟨.keep, .keep, .keep⟩
    | remove => exact ⟨.remove, .remove, .remove⟩
    | amend val val' front h =>
      exact ⟨.amend ⟨(val, val'), h⟩ front, .amend _ _ front rfl, .amend _ _ front rfl⟩
    | write cost val val' mode h =>
      exact ⟨.write cost ⟨(val, val'), h⟩ mode, .write cost _ _ mode rfl, .write cost _ _ mode rfl⟩
    | insert cost val val' h =>
      exact ⟨.insert cost ⟨(val, val'), h⟩, .insert cost _ _ rfl, .insert cost _ _ rfl⟩
    | noted val b hold h =>
      exact ⟨.amend ⟨(val, b), h⟩ false, .amend _ _ false rfl, .noted _ b hold rfl⟩
    | settled cost val val' front hcost h =>
      refine ⟨.write cost ⟨(val, val'), h⟩ ⟨true, front, false⟩, .write cost _ _ _ rfl,
        .settled cost _ _ front (fun n hn => ?_) rfl⟩
      have hfind := find_map (fun q : {q : α × β // R q.1 q.2} => q.1.1) p k
      rw [hn] at hfind
      exact hspent cost hcost _ hfind
  obtain ⟨both, hfst, hsnd⟩ := hpair
  refine ⟨p.exec (fun q => pinned q.1.1) both k, hwf.exec _ both k, ?_, ?_⟩
  · exact hwf.exec_map (fun _ => rfl) hfst
  · exact hwf.exec_map (fun q => hpin _ _ q.2) hsnd

end Alike

end Cache

end Supercache.Lru
