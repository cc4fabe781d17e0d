import Supercache.KeyValue
import Supercache.ScoredCollections
import Supercache.JsonX

/-!
The item of the store. Beside its entry it keeps the decoded values of six
modes; five of them share one shape, described by a kind: a flag, a codec and a
slot. A dirty slot is ahead of the entry's bytes, which are written out when
the entry is read.
-/
namespace Supercache

open Wire Lru JsonText

structure Slot (σ : Type) where
  cache : Option σ
  dirty : Bool

def Slot.clear {σ : Type} : Slot σ := ⟨none, false⟩

def Slot.Backed {σ : Type} (s : Slot σ) : Prop := s.dirty = true → s.cache ≠ none

/-- The element of the recency list. The JSON cache uses null for both "no
cache" and the null document. -/
structure LruItem where
  entry : Entry
  set : Slot SetX.Members
  z : Slot ZSet.Scores
  g : Slot Geo.Index
  l : Slot ListX.Items
  h : Slot HashX.Fields
  jCache : Json
  jDirty : Bool

def LruItem.new (e : Entry) : LruItem where
  entry := e
  set := .clear
  z := .clear
  g := .clear
  l := .clear
  h := .clear
  jCache := .null
  jDirty := false

structure Kind (σ : Type) where
  flag : ℕ
  new : σ
  encode : σ → Bytes
  decode : Bytes → Option σ
  approxWireBytes : σ → ℕ
  slot : LruItem → Slot σ
  setSlot : LruItem → Slot σ → LruItem
  slot_setSlot : ∀ it s, slot (setSlot it s) = s
  entry_setSlot : ∀ it s, (setSlot it s).entry = it.entry

attribute [simp] Kind.slot_setSlot Kind.entry_setSlot

def setKind : Kind SetX.Members where
  flag := flagSet
  new := SetX.new
  encode := SetX.encode
  decode := SetX.decodeSet
  approxWireBytes := SetX.approxWireBytes
  slot := LruItem.set
  setSlot it s := { it with set := s }
  slot_setSlot _ _ := rfl
  entry_setSlot _ _ := rfl

def zKind : Kind ZSet.Scores where
  flag := flagZSet
  new := ZSet.new
  encode := ZSet.encode
  decode := ZSet.decode
  approxWireBytes := ZSet.approxWireBytes
  slot := LruItem.z
  setSlot it s := { it with z := s }
  slot_setSlot _ _ := rfl
  entry_setSlot _ _ := rfl

def gKind : Kind Geo.Index where
  flag := flagGeo
  new := Geo.new
  encode := Geo.encode
  decode := Geo.decode
  approxWireBytes := Geo.approxWireBytes
  slot := LruItem.g
  setSlot it s := { it with g := s }
  slot_setSlot _ _ := rfl
  entry_setSlot _ _ := rfl

def lKind : Kind ListX.Items where
  flag := flagList
  new := ListX.new
  encode := ListX.encode
  decode := ListX.decode
  approxWireBytes := ListX.approxWireBytes
  slot := LruItem.l
  setSlot it s := { it with l := s }
  slot_setSlot _ _ := rfl
  entry_setSlot _ _ := rfl

def hKind : Kind HashX.Fields where
  flag := flagHash
  new := HashX.new
  encode := HashX.encode
  decode := HashX.decode
  approxWireBytes := HashX.approxWireBytes
  slot := LruItem.h
  setSlot it s := { it with h := s }
  slot_setSlot _ _ := rfl
  entry_setSlot _ _ := rfl

namespace Kind

variable {σ : Type} (K : Kind σ)

def load (it : LruItem) : Option σ :=
  match (K.slot it).cache with
  | some s => some s
  | none => K.decode it.entry.value

def pending (it : LruItem) : Option Bytes :=
  match K.slot it with
  | ⟨some s, true⟩ => if it.entry.has K.flag then some (K.encode s) else none
  | _ => none

def flushValue (it : LruItem) : LruItem × Bool :=
  match K.pending it with
  | some blob =>
    (K.setSlot { it with entry := { it.entry with value := blob } }
      ⟨(K.slot it).cache, false⟩, true)
  | none => (it, false)

end Kind

def flushJSONValue (it : LruItem) : LruItem × Bool :=
  if it.jDirty ∧ it.entry.has flagJSON then
    ({ it with entry := { it.entry with value := JsonX.encode it.jCache }, jDirty := false }, true)
  else (it, false)

variable {σ : Type} {it : LruItem}

theorem Kind.entry_flushValue (K : Kind σ) (it : LruItem) :
    ∃ blob, (K.flushValue it).1.entry = { it.entry with value := blob } := by
  unfold Kind.flushValue
  split
  · exact ⟨_, K.entry_setSlot _ _⟩
  · exact ⟨it.entry.value, rfl⟩

theorem entry_flushJSONValue (it : LruItem) :
    ∃ blob, (flushJSONValue it).1.entry = { it.entry with value := blob } := by
  unfold flushJSONValue
  split
  · exact ⟨_, rfl⟩
  · exact ⟨it.entry.value, rfl⟩

def LruItem.flush (it : LruItem) : LruItem × Bool :=
  let (it, f₁) := setKind.flushValue it
  let (it, f₂) := zKind.flushValue it
  let (it, f₃) := gKind.flushValue it
  let (it, f₄) := lKind.flushValue it
  let (it, f₅) := hKind.flushValue it
  let (it, f₆) := flushJSONValue it
  (it, f₁ || f₂ || f₃ || f₄ || f₅ || f₆)

/-- What each of the six flushes keeps, a flush keeps. -/
theorem LruItem.flush_keeps {P : LruItem → Prop} (hset : ∀ it, P it → P (setKind.flushValue it).1)
    (hz : ∀ it, P it → P (zKind.flushValue it).1) (hg : ∀ it, P it → P (gKind.flushValue it).1)
    (hl : ∀ it, P it → P (lKind.flushValue it).1) (hh : ∀ it, P it → P (hKind.flushValue it).1)
    (hj : ∀ it, P it → P (flushJSONValue it).1) (h : P it) : P it.flush.1 :=
  hj _ (hh _ (hl _ (hg _ (hz _ (hset _ h)))))

/-- Flushing writes the entry's bytes and nothing else of the entry. -/
theorem LruItem.entry_flush (it : LruItem) :
    ∃ blob, it.flush.1.entry = { it.entry with value := blob } := by
  have hkind {σ : Type} (K : Kind σ) (it' : LruItem)
      (h : ∃ blob, it'.entry = { it.entry with value := blob }) :
      ∃ blob, (K.flushValue it').1.entry = { it.entry with value := blob } := by
    obtain ⟨b, hb⟩ := h
    obtain ⟨b', hb'⟩ := K.entry_flushValue it'
    exact ⟨b', by rw [hb', hb]⟩
  refine LruItem.flush_keeps (hkind setKind) (hkind zKind) (hkind gKind) (hkind lKind)
    (hkind hKind) (fun it' h => ?_) ⟨it.entry.value, rfl⟩
  obtain ⟨b, hb⟩ := h
  obtain ⟨b', hb'⟩ := entry_flushJSONValue it'
  exact ⟨b', by rw [hb', hb]⟩

def LruItem.caches (it : LruItem) :=
  (it.set.cache, it.z.cache, it.g.cache, it.l.cache, it.h.cache, it.jCache)

/-- Flushing keeps every decoded value. -/
theorem LruItem.caches_flush (it : LruItem) : it.flush.1.caches = it.caches := by
  refine LruItem.flush_keeps (P := fun it' => it'.caches = it.caches) ?_ ?_ ?_ ?_ ?_ ?_ rfl
  all_goals
    intro it' h
    rw [← h]
    first
      | unfold Kind.flushValue
      | unfold flushJSONValue
    split <;> rfl

theorem Kind.pending_of_not_has (K : Kind σ) (h : it.entry.has K.flag = false) :
    K.pending it = none := by
  unfold Kind.pending
  split
  · rw [if_neg (by simp [h])]
  · rfl

theorem Kind.pending_of_clean (K : Kind σ) (h : (K.slot it).dirty = false) :
    K.pending it = none := by
  unfold Kind.pending
  split
  next hslot =>
    simp [hslot] at h
  · rfl

/-- No slot is ahead of the entry's bytes. -/
structure LruItem.Settled (it : LruItem) : Prop where
  set : setKind.pending it = none
  z : zKind.pending it = none
  g : gKind.pending it = none
  l : lKind.pending it = none
  h : hKind.pending it = none
  j : (it.jDirty && it.entry.has flagJSON) = false

/-- An item with nothing to write out is left as it is. -/
theorem LruItem.Settled.flush (hs : it.Settled) : it.flush = (it, false) := by
  have hj : ¬ (it.jDirty = true ∧ it.entry.has flagJSON = true) := by simpa using hs.j
  simp only [LruItem.flush, Kind.flushValue, flushJSONValue, hs.set, hs.z, hs.g, hs.l, hs.h, hj,
    if_false, Bool.or_self]

theorem LruItem.json_settled (it : LruItem) (h : it.entry.has flagJSON = false) :
    (it.jDirty && it.entry.has flagJSON) = false := by
  rw [h, Bool.and_false]

section Settle

variable {σ τ : Type} {it : LruItem}

theorem Kind.pending_flushValue (K : Kind σ) (it : LruItem) :
    K.pending (K.flushValue it).1 = none := by
  unfold Kind.flushValue
  split
  · exact K.pending_of_clean (by rw [K.slot_setSlot])
  next h =>
    exact h

/-- Whether a value is pending is up to its slot and the flags. -/
theorem Kind.pending_congr (K : Kind σ) (it it' : LruItem) (hslot : K.slot it' = K.slot it)
    (hflags : it'.entry.flags = it.entry.flags) : K.pending it' = K.pending it := by
  have hhas : it'.entry.has K.flag = it.entry.has K.flag := by rw [Entry.has, Entry.has, hflags]
  unfold Kind.pending
  rw [hslot, hhas]

/-- Writing out one value leaves another one as it was. -/
theorem Kind.pending_other (K : Kind σ) (J : Kind τ)
    (hslot : ∀ it e s, K.slot (J.setSlot { it with entry := e } s) = K.slot it)
    (h : K.pending it = none) : K.pending (J.flushValue it).1 = none := by
  unfold Kind.flushValue
  split
  · exact (K.pending_congr it _ (hslot it _ _) (by rw [J.entry_setSlot])).trans h
  · exact h

theorem Kind.pending_flushJSONValue (K : Kind σ)
    (hslot : ∀ it e b, K.slot { it with entry := e, jDirty := b } = K.slot it)
    (h : K.pending it = none) : K.pending (flushJSONValue it).1 = none := by
  unfold flushJSONValue
  split
  · rw [← h]
    exact K.pending_congr it _ (hslot it _ _) rfl
  · exact h

/-- Flushing writes out every dirty slot. -/
theorem LruItem.settled_flush (it : LruItem) : it.flush.1.Settled := by
  refine ⟨?_, ?_, ?_, ?_, ?_, ?_⟩
  · refine setKind.pending_flushJSONValue (fun _ _ _ => rfl) ?_
    refine setKind.pending_other hKind (fun _ _ _ => rfl) ?_
    refine setKind.pending_other lKind (fun _ _ _ => rfl) ?_
    refine setKind.pending_other gKind (fun _ _ _ => rfl) ?_
    refine setKind.pending_other zKind (fun _ _ _ => rfl) ?_
    exact setKind.pending_flushValue it
  · refine zKind.pending_flushJSONValue (fun _ _ _ => rfl) ?_
    refine zKind.pending_other hKind (fun _ _ _ => rfl) ?_
    refine zKind.pending_other lKind (fun _ _ _ => rfl) ?_
    refine zKind.pending_other gKind (fun _ _ _ => rfl) ?_
    exact zKind.pending_flushValue _
  · refine gKind.pending_flushJSONValue (fun _ _ _ => rfl) ?_
    refine gKind.pending_other hKind (fun _ _ _ => rfl) ?_
    refine gKind.pending_other lKind (fun _ _ _ => rfl) ?_
    exact gKind.pending_flushValue _
  · refine lKind.pending_flushJSONValue (fun _ _ _ => rfl) ?_
    refine lKind.pending_other hKind (fun _ _ _ => rfl) ?_
    exact lKind.pending_flushValue _
  · refine hKind.pending_flushJSONValue (fun _ _ _ => rfl) ?_
    exact hKind.pending_flushValue _
  · simp only [LruItem.flush, flushJSONValue]
    split
    · rfl
    next hj =>
      simpa using hj

theorem LruItem.l_flush (it : LruItem) :
    it.flush.1.l = it.l ∨ it.flush.1.l = ⟨it.l.cache, false⟩ := by
  have hkeep {σ : Type} (K : Kind σ)
      (hK : ∀ (it : LruItem) e s, (K.setSlot { it with entry := e } s).l = it.l)
      (it' : LruItem) (h : it'.l = it.l ∨ it'.l = ⟨it.l.cache, false⟩) :
      (K.flushValue it').1.l = it.l ∨ (K.flushValue it').1.l = ⟨it.l.cache, false⟩ := by
    unfold Kind.flushValue
    split
    · rwa [hK]
    · exact h
  refine LruItem.flush_keeps (hkeep setKind fun _ _ _ => rfl) (hkeep zKind fun _ _ _ => rfl)
    (hkeep gKind fun _ _ _ => rfl) (fun it' h => ?_) (hkeep hKind fun _ _ _ => rfl)
    (fun it' h => ?_) (Or.inl rfl)
  · unfold Kind.flushValue
    split
    · rcases h with h | h <;> exact Or.inr (by simp [lKind, h])
    · exact h
  · unfold flushJSONValue
    split <;> exact h

/-- Nothing is left to write out after a flush. -/
theorem LruItem.flush_flush (it : LruItem) : it.flush.1.flush = (it.flush.1, false) :=
  it.settled_flush.flush

end Settle

/-- An entry with the flag of one mode and no other. -/
theorem Entry.has_of_flags {e : Entry} {flag : ℕ} (h : e.flags = flag) (flag' : ℕ) :
    e.has flag' = (flag &&& flag' != 0) := by
  rw [Entry.has, h]

instance : Stored LruItem where
  entry := LruItem.entry
  fresh := LruItem.new
  put it e := { it with entry := e }
  flush := LruItem.flush
  entry_fresh _ := rfl
  entry_put _ _ := rfl

end Supercache
