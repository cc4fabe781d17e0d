import Supercache.Ops
import Supercache.LruFront

/-!
Whether a write that reports success can be read back. A write goes to the
front of the list and then evicts, and it reports success without looking
whether its own entry was the victim. That happens exactly when the entry does
not fit beside the pinned entries of the other keys.
-/
namespace Supercache

open Wire Lru Store

/-- If the write reports success, a read at `now'` returns the entry. -/
def ReadsBack (m : Mem) (now : ℤ) (key : Bytes) (write : Verb LruItem Bool) (e : Entry)
    (now' : ℤ) : Prop :=
  (m.perform now key write).2 = true →
    ((m.perform now key write).1.perform now' key (Store.get key)).2 = some e

def pinnedBytes (m : Mem) (now : ℤ) (key : Bytes) : ℤ :=
  totalCost (m.cache.order.filter fun n => n.key ≠ key && n.val.entry.pinned now)

/-- There is no budget, or eviction spares the entry, or it fits beside the
entries that eviction spares. -/
def Room (m : Mem) (now : ℤ) (key : Bytes) (e : Entry) : Prop :=
  m.cache.maxBytes ≤ 0 ∨ e.pinned now = true ∨
    entryCost key e + pinnedBytes m now key ≤ m.cache.maxBytes

/-- An unexpired entry of the key is at least as new. -/
def Outdated (m : Mem) (now : ℤ) (key : Bytes) (e : Entry) : Prop :=
  ∃ it, m.lookup key = some it ∧ it.entry.expired now = false ∧ e.version ≤ it.entry.version

section Write

variable {m : Mem} {key : Bytes} {e : Entry} {now now' : ℤ} {write : Verb LruItem Bool}
  (hact : (write (m.env now) (m.lookup key)).act =
    replace (m.lookup key) (entryCost key e) (fresh e))
include hact

/-- A stored entry is still there after the eviction exactly when there is room. -/
theorem lookup_write_iff :
    (m.perform now key write).1.lookup key = some (LruItem.new e) ↔ Room m now key e := by
  have hfronts : Cache.Act.Fronts (m.cache.find key).isSome (entryCost key e) (LruItem.new e)
      (write (m.env now) (m.lookup key)).act := by
    rw [hact]
    unfold Memory.lookup Cache.lookup
    cases hfind : m.cache.find key with
    | none => exact .insert
    | some n => exact .write false rfl
  exact m.wf.lookup_exec_front_iff (fun it => it.entry.pinned now) hfronts

theorem lookup_write (hroom : ¬ Room m now key e) :
    (m.perform now key write).1.lookup key = none := by
  rcases m.lookup_perform now key write key with heq | ⟨hnone, -⟩
  · refine absurd ((lookup_write_iff hact).mp (heq.trans ?_)) hroom
    simp only [Memory.expected, if_true, hact]
    cases m.lookup key <;> rfl
  · exact hnone

/-- A write that stores its entry is read back exactly when there is room. -/
theorem readsBack_iff (hret : ∀ still, (write (m.env now) (m.lookup key)).ret still = true)
    (hx : e.expired now' = false) (ht : e.isTombstone = false) :
    ReadsBack m now key write e now' ↔ Room m now key e := by
  unfold ReadsBack
  rw [Memory.perform_ret, hret, Memory.perform_ret]
  simp only [true_implies]
  constructor
  · intro hget
    by_contra hroom
    rw [lookup_write hact hroom] at hget
    simp [Store.get] at hget
  · intro hroom
    have hget := get_of_live ((m.perform now key write).1.env now') (LruItem.new e) key hx ht
    rw [(lookup_write_iff hact).mpr hroom, hget]
    rfl

end Write

theorem readsBack_of_refused {m : Mem} {key : Bytes} {e : Entry} {now now' : ℤ}
    {write : Verb LruItem Bool}
    (hret : ∀ still, (write (m.env now) (m.lookup key)).ret still = false) :
    ReadsBack m now key write e now' := by
  unfold ReadsBack
  rw [Memory.perform_ret, hret]
  exact fun h => absurd h Bool.false_ne_true

theorem set_readsBack_iff (m : Mem) (key : Bytes) (e : Entry) (now now' : ℤ)
    (hx : e.expired now' = false) (ht : e.isTombstone = false) :
    ReadsBack m now key (Store.set key e) e now' ↔
      tooBig (m.env now) (entryCost key e) = true ∨ Room m now key e := by
  cases hbig : tooBig (m.env now) (entryCost key e) with
  | true =>
    refine iff_of_true (readsBack_of_refused fun still => ?_) (Or.inl rfl)
    simp [Store.set, hbig, Plan.skip]
  | false =>
    rw [readsBack_iff (by simp [Store.set, hbig]) (by simp [Store.set, hbig]) hx ht]
    simp

/-- Where nothing unexpired is as new, the versioned write is the unconditional one. -/
theorem acceptIfNewer_of_not_outdated {m : Mem} {now : ℤ} {key : Bytes} {e : Entry}
    (hold : ¬ Outdated m now key e) : Store.acceptIfNewer key e (m.env now) (m.lookup key) =
      Store.set key e (m.env now) (m.lookup key) := by
  unfold Outdated at hold
  unfold Store.acceptIfNewer Store.set
  cases hit : m.lookup key with
  | none => rfl
  | some it =>
    exact if_neg fun hgate => hold ⟨it, hit, (Bool.not_eq_true' _).mp hgate.1, hgate.2⟩

theorem acceptIfNewer_readsBack_iff (m : Mem) (key : Bytes) (e : Entry) (now now' : ℤ)
    (hx : e.expired now' = false) (ht : e.isTombstone = false) :
    ReadsBack m now key (Store.acceptIfNewer key e) e now' ↔
      Outdated m now key e ∨ tooBig (m.env now) (entryCost key e) = true ∨ Room m now key e := by
  by_cases hold : Outdated m now key e
  · obtain ⟨it, hit, hlive, hver⟩ := hold
    refine iff_of_true (readsBack_of_refused fun still => ?_) (Or.inl ⟨it, hit, hlive, hver⟩)
    rw [hit, acceptIfNewer_of_le (m.env now) it key hlive hver]
    rfl
  · have hsame : ReadsBack m now key (Store.acceptIfNewer key e) e now' ↔
        ReadsBack m now key (Store.set key e) e now' := by
      unfold ReadsBack
      rw [m.perform_congr (acceptIfNewer_of_not_outdated hold)]
    rw [hsame, set_readsBack_iff m key e now now' hx ht]
    simp [hold]

/-- Exactly when a successful write can be read back: the call was refused, there
is no budget, eviction spares the entry, or the entry fits beside what eviction
spares. -/
theorem read_your_writes_iff (m : Mem) (key : Bytes) (e : Entry) (now now' : ℤ)
    (hx : e.expired now' = false) (ht : e.isTombstone = false) :
    (ReadsBack m now key (Store.set key e) e now' ↔
      tooBig (m.env now) (entryCost key e) = true ∨ Room m now key e) ∧
    (ReadsBack m now key (Store.acceptIfNewer key e) e now' ↔
      Outdated m now key e ∨ tooBig (m.env now) (entryCost key e) = true ∨
        Room m now key e) :=
  ⟨set_readsBack_iff m key e now now' hx ht, acceptIfNewer_readsBack_iff m key e now now' hx ht⟩

/-- In a store of 200 bytes a tombstone and a small entry fit side by side. -/
theorem read_your_writes_beside_tombstone :
    let m := run (Memory.newMemory 200 1000) [⟨0, [1], .plain (.deleteIfVersion 1)⟩]
    ReadsBack m 1 [3] (Store.set [3] ⟨[7], 1, 0, 0⟩) ⟨[7], 1, 0, 0⟩ 1 ∧
      ReadsBack m 1 [3] (Store.acceptIfNewer [3] ⟨[7], 1, 0, 0⟩) ⟨[7], 1, 0, 0⟩ 1 := by
  intro m
  have hroom : Room m 1 [3] ⟨[7], 1, 0, 0⟩ := Or.inr (Or.inr (by decide))
  obtain ⟨hset, haccept⟩ := read_your_writes_iff m [3] ⟨[7], 1, 0, 0⟩ 1 1 (by decide) (by decide)
  exact ⟨hset.mpr (Or.inr hroom), haccept.mpr (Or.inr (Or.inr hroom))⟩

/-- Two tombstones fill a store of 140 bytes: both writes report success and both
entries are evicted at once. -/
theorem write_lost_beside_tombstones :
    let m := run (Memory.newMemory 140 1000)
      [⟨0, [1], .plain (.deleteIfVersion 1)⟩, ⟨0, [2], .plain (.deleteIfVersion 1)⟩]
    ¬ ReadsBack m 1 [3] (Store.set [3] ⟨[7], 1, 0, 0⟩) ⟨[7], 1, 0, 0⟩ 1 ∧
      ¬ ReadsBack m 1 [3] (Store.acceptIfNewer [3] ⟨[7], 1, 0, 0⟩) ⟨[7], 1, 0, 0⟩ 1 := by
  intro m
  refine ⟨fun h => absurd (h rfl) (by decide), fun h => absurd (h rfl) (by decide)⟩

end Supercache
