import Supercache.LruFront
import Supercache.Ops

/-!
Eviction of the store. Tombstones and the values of the structured modes are
spared while they are unexpired; of the rest the least recent go first, and no
more of them than the byte budget asks for.
-/
namespace Supercache.Eviction

open Wire Lru

def candidates (m : Mem) (now : ℤ) : List (Node Bytes LruItem) :=
  m.cache.candidates fun it => it.entry.pinned now

def evictLocked (m : Mem) (now : ℤ) : Cache Bytes LruItem :=
  m.cache.evict fun it => it.entry.pinned now

/-- The loop comes to its end. What it removes is the shortest run of candidates that makes
the total fit, or all of them; everything else stays as it is, in the same order. -/
theorem evictLocked_exact (m : Mem) (now : ℤ) (hmax : 0 < m.cache.maxBytes) :
    (evictLocked m now).WF ∧
    (∀ passes, m.cache.order.length ≤ passes →
      Cache.evictLoop (fun it : LruItem => it.entry.pinned now) passes m.cache =
        evictLocked m now) ∧
    (∃ k ≤ (candidates m now).length,
      (∀ j < k, m.cache.maxBytes < m.cache.bytes - totalCost ((candidates m now).take j)) ∧
      (m.cache.bytes - totalCost ((candidates m now).take k) ≤ m.cache.maxBytes ∨
        k = (candidates m now).length) ∧
      (evictLocked m now).order = m.cache.order.filter (fun n =>
        decide (n.id ∉ ((candidates m now).take k).map Node.id)) ∧
      (evictLocked m now).bytes = m.cache.bytes - totalCost ((candidates m now).take k)) ∧
    ((evictLocked m now).bytes ≤ m.cache.maxBytes ∨
      ∀ n ∈ (evictLocked m now).order, n.val.entry.pinned now = true) := by
  have hloop : evictLocked m now =
      Cache.evictLoop (fun it : LruItem => it.entry.pinned now) m.cache.order.length m.cache := by
    rw [evictLocked, Cache.evict, if_neg (by omega)]
  refine ⟨m.wf.evict _, fun passes hle => ?_, ?_, m.wf.evict_fits hmax⟩
  · rw [hloop]
    exact m.wf.evictLoop_of_le hle
  · rw [hloop]
    obtain ⟨k, hshortest, hwithout⟩ := m.wf.evictLoop_shortest (Nat.le_refl _)
    exact ⟨k, hshortest.le, hshortest.exceeds, hshortest.fits, hwithout.order, hwithout.bytes⟩

def withBudget (m : Mem) (maxBytes : ℤ) : Mem where
  cache := { m.cache with maxBytes := maxBytes }
  tombstoneTTL := m.tombstoneTTL
  hits := m.hits
  misses := m.misses
  staleSkip := m.staleSkip
  wf := ⟨m.wf.ids_nodup, m.wf.id_lt, m.wf.lookup_iff, m.wf.bytes_eq⟩

def crowded : Mem :=
  withBudget (run (Memory.newMemory 0 0)
    [⟨0, [1], .plain (.deleteIfVersion 1)⟩, ⟨0, [2], .plain (.set ⟨[7], 1, 0, 0⟩)⟩,
      ⟨0, [3], .plain (.set ⟨[8], 1, 0, 0⟩)⟩]) 150

/-- The tombstone is the least recent, but the first value goes. -/
theorem evictLocked_crowded :
    (evictLocked crowded 1).order.map Node.key = [[3], [1]] ∧
      ((evictLocked crowded 1).bytes ≤ 150 ∨
        ∀ n ∈ (evictLocked crowded 1).order, n.val.entry.pinned 1 = true) :=
  ⟨by decide +kernel, (evictLocked_exact crowded 1 (by decide)).2.2.2⟩

end Supercache.Eviction
