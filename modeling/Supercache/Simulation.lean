import Supercache.Likeness

/-!
Two stores whose recency lists are the same but for related items. A call whose plans
agree gives the same answer in both and leaves them related, evictions included; so
whole runs give the same answers.
-/
namespace Supercache

open Wire Lru

/-- The same store but for related items; what is counted does not matter. -/
structure Memory.Alike {α β : Type} (R : α → β → Prop) (m : Memory α) (m' : Memory β) : Prop where
  cache : m.cache.Alike R m'.cache
  tombstoneTTL : m'.tombstoneTTL = m.tombstoneTTL

namespace Memory.Alike

variable {α β : Type} {R : α → β → Prop} {m : Memory α} {m' : Memory β}

theorem lookup (h : m.Alike R m') (k : Bytes) : Option.Rel R (m.lookup k) (m'.lookup k) :=
  h.cache.lookup k

theorem env_eq (h : m.Alike R m') (now : ℤ) : m'.env now = m.env now := by
  rw [Memory.env, Memory.env, h.cache.maxBytes_eq, h.tombstoneTTL]

end Memory.Alike

namespace Likeness

section Perform

variable {α β ρ : Type} [Stored α] [Stored β] {L : Likeness α β} {P : α → β → Prop}
  {m : Memory α} {m' : Memory β} {now : ℤ} {key : Bytes}

/-- One call on related stores. `P` is what is left of the relation afterwards. -/
theorem perform (hR : ∀ a b, L.R a b → P a b) (hQ : ∀ a b, L.Q a b → P a b)
    (hpin : ∀ a b, P a b → (Stored.entry b).pinned now = (Stored.entry a).pinned now)
    (h : m.Alike L.R m')
    (hspent : ∀ cost, (∀ a, m.lookup key = some a → L.spent key a cost) → m.cache.Spent key cost)
    {v : Verb α ρ} {w : Verb β ρ} (hagree : L.Agree key v w) :
    (m'.perform now key w).2 = (m.perform now key v).2 ∧
      (m.perform now key v).1.Alike P (m'.perform now key w).1 := by
  have hplan := hagree (m.env now) (m.lookup key) (m'.lookup key) (h.lookup key)
  have hafter : (m.perform now key v).1.Alike P (m'.perform now key w).1 := by
    refine ⟨?_, h.tombstoneTTL⟩
    have hcache : (m'.perform now key w).1.cache = m'.cache.exec
        (fun b => (Stored.entry b).pinned now) (w (m.env now) (m'.lookup key)).act key := by
      rw [← h.env_eq now]
      rfl
    rw [hcache]
    exact (h.cache.mono hR).exec (hplan.act.mono hQ fun _ => id) hspent hpin
  refine ⟨?_, hafter⟩
  rw [Memory.perform_ret, Memory.perform_ret, isSome_of_rel (hafter.lookup key), h.env_eq now,
    hplan.ret]

end Perform

section Runs

variable {L : Likeness LruItem LruItem} (hQ : ∀ a b, L.Q a b → L.R a b)
  (hspent : ∀ key a cost, ¬ L.spent key a cost) (hmatch : L.Matches lazily lazily)

theorem pinned_eq {a b : LruItem} (h : L.R a b) (now : ℤ) :
    (Stored.entry b).pinned now = (Stored.entry a).pinned now := by
  obtain ⟨blob, heq⟩ := L.entry h
  rw [heq]
  rfl

include hspent hmatch in
theorem step_ret_eq {P : LruItem → LruItem → Prop} (hR : ∀ a b, L.R a b → P a b)
    (hQP : ∀ a b, L.Q a b → P a b)
    (hpin : ∀ a b now, P a b → (Stored.entry b).pinned now = (Stored.entry a).pinned now)
    {m m' : Mem} (h : m.Alike L.R m') (op : Op) (hpure : op.call.Pure) :
    (step m' op).2 = (step m op).2 ∧ (step m op).1.Alike P (step m' op).1 := by
  unfold step
  rw [Call.verb_eq]
  refine perform hR hQP (fun a b => hpin a b op.now) h ?_ (agree_verb hmatch op.call hpure)
  exact fun _ hcost n hn => absurd (hcost n.val (Cache.lookup_of_find hn)) (hspent _ n.val _)

include hQ hspent hmatch in
/-- A relation that calls keep is kept by runs, and they give the same answers. -/
theorem answers_eq (ops : List Op) (hpure : ∀ op ∈ ops, op.call.Pure) {m m' : Mem}
    (h : m.Alike L.R m') : answers m' ops = answers m ops := by
  induction ops generalizing m m' with
  | nil => rfl
  | cons op ops ih =>
    obtain ⟨hret, hafter⟩ := step_ret_eq hspent hmatch (fun _ _ => id) hQ
      (fun _ _ now hab => pinned_eq hab now) h op (hpure op List.mem_cons_self)
    rw [answers, answers, hret, ih (fun op hop => hpure op (List.mem_cons_of_mem _ hop)) hafter]

end Runs

end Likeness

end Supercache
