import Supercache.LruAction
import Supercache.Entry

/-!
The store. A verb decides, from the item of its key and the clock alone, what happens to the item:
this decision is a plan. Performing it carries out its action on the recency list, evicts if the
action asks for it, counts the outcome and returns the result, which may depend on whether the key
survived.
-/
namespace Supercache

open Wire Lru

class Stored (α : Type) where
  entry : α → Entry
  /-- A new item. -/
  fresh : Entry → α
  /-- The same item with another entry. -/
  put : α → Entry → α
  /-- Writes what the item still holds back into its entry, and says whether it did. -/
  flush : α → α × Bool
  entry_fresh : ∀ e, entry (fresh e) = e
  entry_put : ∀ a e, entry (put a e) = e

attribute [simp] Stored.entry_fresh Stored.entry_put

export Stored (entry fresh put flush)

/-- An item that is nothing but its entry. -/
instance : Stored Entry where
  entry e := e
  fresh e := e
  put _ e := e
  flush e := (e, false)
  entry_fresh _ := rfl
  entry_put _ _ := rfl

structure Env where
  now : ℤ
  maxBytes : ℤ
  tombstoneTTL : ℤ

inductive Tally where
  | quiet
  | hit
  | miss
  | stale
deriving DecidableEq

/-- What to do with an item, what to count, and the result, given whether the
key is still there afterwards. -/
structure Plan (α ρ : Type) where
  act : Act α
  tally : Tally
  ret : Bool → ρ

namespace Plan

variable {α ρ : Type}

def skip (r : ρ) : Plan α ρ := ⟨.keep, .quiet, fun _ => r⟩

def stale (r : ρ) : Plan α ρ := ⟨.keep, .stale, fun _ => r⟩

def drop (r : ρ) : Plan α ρ := ⟨.remove, .quiet, fun _ => r⟩

end Plan

abbrev Verb (α ρ : Type) := Env → Option α → Plan α ρ

structure Memory (α : Type) where
  cache : Cache Bytes α
  tombstoneTTL : ℤ
  hits : ℕ
  misses : ℕ
  staleSkip : ℕ
  wf : cache.WF

namespace Memory

variable {α ρ : Type}

def newMemory (maxBytes tombstoneTTL : ℤ) : Memory α where
  cache := Cache.empty maxBytes
  tombstoneTTL := tombstoneTTL
  hits := 0
  misses := 0
  staleSkip := 0
  wf := Cache.WF.empty maxBytes

def env (m : Memory α) (now : ℤ) : Env where
  now := now
  maxBytes := m.cache.maxBytes
  tombstoneTTL := m.tombstoneTTL

def lookup (m : Memory α) (key : Bytes) : Option α := m.cache.lookup key

def close (m : Memory α) : Memory α := { m with cache := m.cache.clear, wf := Cache.WF.clear _ }

variable [Stored α]

def perform (m : Memory α) (now : ℤ) (key : Bytes) (v : Verb α ρ) : Memory α × ρ :=
  let plan := v (m.env now) (m.lookup key)
  let cache := m.cache.exec (fun a => (entry a).pinned now) plan.act key
  ({ cache := cache
     tombstoneTTL := m.tombstoneTTL
     hits := if plan.tally = .hit then m.hits + 1 else m.hits
     misses := if plan.tally = .miss then m.misses + 1 else m.misses
     staleSkip := if plan.tally = .stale then m.staleSkip + 1 else m.staleSkip
     wf := m.wf.exec _ plan.act key },
   plan.ret (cache.lookup key).isSome)

def expected (m : Memory α) (now : ℤ) (key : Bytes) (v : Verb α ρ) (k : Bytes) : Option α :=
  if k = key then (v (m.env now) (m.lookup key)).act.result (m.lookup key) else m.lookup k

theorem lookup_perform (m : Memory α) (now : ℤ) (key : Bytes) (v : Verb α ρ) (k : Bytes) :
    (m.perform now key v).1.lookup k = m.expected now key v k ∨
      (m.perform now key v).1.lookup k = none ∧
        ∃ a, m.expected now key v k = some a ∧ (entry a).pinned now = false := by
  rcases m.wf.lookup_exec (fun a => (entry a).pinned now)
    (v (m.env now) (m.lookup key)).act key k with heq | ⟨hnone, -, a, ha, hpin⟩
  · exact Or.inl heq
  · exact Or.inr ⟨hnone, a, ha, hpin⟩

variable {now : ℤ} {key : Bytes} {v : Verb α ρ}

variable (m : Memory α)
include m

theorem lookup_perform_of_pinned {k : Bytes} {a : α}
    (ha : m.expected now key v k = some a) (hpin : (entry a).pinned now = true) :
    (m.perform now key v).1.lookup k = some a :=
  m.wf.lookup_exec_of_pinned (fun a => (entry a).pinned now) (v (m.env now) (m.lookup key)).act ha
    hpin

theorem lookup_perform_of_unbounded (hmax : m.cache.maxBytes ≤ 0) (now : ℤ)
    (key : Bytes) (v : Verb α ρ) (k : Bytes) :
    (m.perform now key v).1.lookup k = m.expected now key v k :=
  m.wf.lookup_exec_of_unbounded hmax _ _ key k

/-- A verb that does not evict leaves exactly what it says. -/
theorem lookup_perform_of_not_evicts
    (hev : (v (m.env now) (m.lookup key)).act.evicts = false) (k : Bytes) :
    (m.perform now key v).1.lookup k = m.expected now key v k := by
  rcases m.wf.lookup_exec (fun a => (entry a).pinned now)
    (v (m.env now) (m.lookup key)).act key k with heq | ⟨-, htrue, -⟩
  · exact heq
  · exact absurd (htrue.symm.trans hev) (by simp)

theorem evictions_perform_le (now : ℤ) (key : Bytes) (v : Verb α ρ) :
    m.cache.evictions ≤ (m.perform now key v).1.cache.evictions :=
  m.wf.evictions_le_exec _ _ key

theorem lookup_perform_of_evictions_eq
    (hev : (m.perform now key v).1.cache.evictions = m.cache.evictions) (k : Bytes) :
    (m.perform now key v).1.lookup k = m.expected now key v k :=
  m.wf.lookup_exec_of_evictions_eq _ _ key k hev

/-- A call that only looks leaves the item where it is. -/
theorem lookup_perform_of_keep (hkeep : (v (m.env now) (m.lookup key)).act = .keep) :
    (m.perform now key v).1.lookup key = m.lookup key := by
  rw [m.lookup_perform_of_not_evicts (by rw [hkeep]; rfl), expected, if_pos rfl, hkeep]
  rfl

/-- Only the plan for the item at hand matters. -/
theorem perform_congr {w : Verb α ρ}
    (h : v (m.env now) (m.lookup key) = w (m.env now) (m.lookup key)) :
    m.perform now key v = m.perform now key w := by
  simp only [perform, h]

@[simp]
theorem perform_env (now : ℤ) (key : Bytes) (v : Verb α ρ) (now' : ℤ) :
    (m.perform now key v).1.env now' = m.env now' := by
  simp only [env, perform]
  rw [m.wf.exec_maxBytes]

theorem perform_ret (now : ℤ) (key : Bytes) (v : Verb α ρ) :
    (m.perform now key v).2 =
      (v (m.env now) (m.lookup key)).ret ((m.perform now key v).1.lookup key).isSome :=
  rfl

end Memory

end Supercache
