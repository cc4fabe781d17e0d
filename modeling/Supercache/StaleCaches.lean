import Supercache.Simulation

/-!
Items that differ in caches no call looks at. An entry replaced in place keeps the decoded values
of the one before. Two items with the same entry answer every call alike if they agree in the
caches of the modes that the entry has.
-/
namespace Supercache

open Wire Lru Store JsonText

/-- The same entry, and the same caches where the entry has the flag. -/
structure Twin (a b : LruItem) : Prop where
  entry : b.entry = a.entry
  slot : ∀ m : Mode, a.entry.has m.kind.flag = true → m.kind.slot b = m.kind.slot a
  doc : a.entry.has flagJSON = true → b.jCache = a.jCache ∧ b.jDirty = a.jDirty

namespace Twin

variable {a b : LruItem}

theorem refl (a : LruItem) : Twin a a := ⟨rfl, fun _ _ => rfl, fun _ => ⟨rfl, rfl⟩⟩

/-- Without a cached mode there is no cache to agree in. -/
theorem of_uncached (heq : b.entry = a.entry) (h : Uncached a.entry.flags) : Twin a b where
  entry := heq
  slot m hhas := absurd ((h.has m).symm.trans hhas) (by simp)
  doc hhas := by simp [Entry.has, h.json] at hhas

theorem setSlot (h : Twin a b) (m : Mode) (s : Slot m.Value) :
    Twin (m.kind.setSlot a s) (m.kind.setSlot b s) where
  entry := by rw [m.kind.entry_setSlot, m.kind.entry_setSlot, h.entry]
  slot m' hhas := by
    rw [m.kind.entry_setSlot] at hhas
    by_cases hm : m = m'
    · subst hm
      rw [m.kind.slot_setSlot, m.kind.slot_setSlot]
    · rw [Mode.slot_setSlot_of_ne hm, Mode.slot_setSlot_of_ne hm, h.slot m' hhas]
  doc hhas := by
    rw [m.kind.entry_setSlot] at hhas
    rw [m.jCache_setSlot, m.jCache_setSlot, m.jDirty_setSlot, m.jDirty_setSlot]
    exact h.doc hhas

/-- Another entry and document under the same flags. -/
theorem note (h : Twin a b) {e : Entry} (he : e.flags = a.entry.flags) (doc : Json) (dirty : Bool) :
    Twin { a with entry := e, jCache := doc, jDirty := dirty }
      { b with entry := e, jCache := doc, jDirty := dirty } where
  entry := rfl
  slot m hhas := by
    have hslot : ∀ it : LruItem,
        m.kind.slot { it with entry := e, jCache := doc, jDirty := dirty } = m.kind.slot it := by
      cases m <;> exact fun _ => rfl
    have hhas' : a.entry.has m.kind.flag = true := by rw [Entry.has, ← he]; exact hhas
    exact (hslot b).trans ((h.slot m hhas').trans (hslot a).symm)
  doc _ := ⟨rfl, rfl⟩

/-- Other bytes, version and expiry under the same flags. -/
theorem put (h : Twin a b) {e : Entry} (he : e.flags = a.entry.flags) :
    Twin { a with entry := e } { b with entry := e } where
  entry := rfl
  slot m hhas := by
    have hhas' : a.entry.has m.kind.flag = true := by rw [Entry.has, ← he]; exact hhas
    exact (m.slot_put b e).trans ((h.slot m hhas').trans (m.slot_put a e).symm)
  doc hhas := h.doc (by rw [Entry.has, ← he]; exact hhas)

/-- The value of one mode in place of whatever there was. -/
theorem of_mode (m : Mode) {e : Entry} (he : e.flags = m.kind.flag) (s : Slot m.Value) :
    Twin (m.kind.setSlot { a with entry := e } s) (m.kind.setSlot { b with entry := e } s) where
  entry := by rw [m.kind.entry_setSlot, m.kind.entry_setSlot]
  slot m' hhas := by
    rw [m.kind.entry_setSlot] at hhas
    by_cases hm : m = m'
    · subst hm
      rw [m.kind.slot_setSlot, m.kind.slot_setSlot]
    · have hnot : m.kind.flag &&& m'.kind.flag = 0 := Mode.flag_and_flag hm
      simp [Entry.has, he, hnot] at hhas
  doc hhas := by
    rw [m.kind.entry_setSlot] at hhas
    simp [Entry.has, he, m.flag_and_json] at hhas

/-- A document in place of whatever there was. -/
theorem of_json {e : Entry} (he : e.flags = flagJSON) (doc : Json) :
    Twin { a with entry := e, jCache := doc, jDirty := false }
      { b with entry := e, jCache := doc, jDirty := false } where
  entry := rfl
  slot m hhas := by
    have hnot : flagJSON &&& m.kind.flag = 0 := by cases m <;> rfl
    simp [Entry.has, he, hnot] at hhas
  doc _ := ⟨rfl, rfl⟩

variable (h : Twin a b)
include h

theorem pending_eq (m : Mode) : m.kind.pending b = m.kind.pending a := by
  cases hhas : a.entry.has m.kind.flag with
  | true => exact m.kind.pending_congr a b (h.slot m hhas) (by rw [h.entry])
  | false =>
    rw [m.kind.pending_of_not_has hhas, m.kind.pending_of_not_has (by rw [h.entry, hhas])]

theorem flushValue (m : Mode) : (m.kind.flushValue b).2 = (m.kind.flushValue a).2 ∧
      Twin (m.kind.flushValue a).1 (m.kind.flushValue b).1 := by
  unfold Kind.flushValue
  rw [h.pending_eq m]
  cases hpending : m.kind.pending a with
  | none => exact ⟨rfl, h⟩
  | some blob =>
    have hhas : a.entry.has m.kind.flag = true := by
      by_contra hnot
      rw [m.kind.pending_of_not_has (Bool.eq_false_iff.mpr hnot)] at hpending
      cases hpending
    refine ⟨rfl, ?_⟩
    rw [h.slot m hhas, h.entry]
    have hput : Twin { a with entry := { a.entry with value := blob } }
        { b with entry := { a.entry with value := blob } } := h.put rfl
    exact hput.setSlot m _

theorem flushJSONValue :
    (Supercache.flushJSONValue b).2 = (Supercache.flushJSONValue a).2 ∧
      Twin (Supercache.flushJSONValue a).1 (Supercache.flushJSONValue b).1 := by
  unfold Supercache.flushJSONValue
  rw [h.entry]
  cases hhas : a.entry.has flagJSON with
  | false => simpa using h
  | true =>
    obtain ⟨hcache, hdirty⟩ := h.doc hhas
    rw [hcache, hdirty]
    split
    · exact ⟨rfl, h.note (by rfl) _ false⟩
    · exact ⟨rfl, h⟩

/-- What is written out is the same. -/
theorem flush : b.flush.2 = a.flush.2 ∧ Twin a.flush.1 b.flush.1 := by
  obtain ⟨e₁, h₁⟩ : _ ∧ Twin (setKind.flushValue a).1 (setKind.flushValue b).1 :=
    h.flushValue .set
  obtain ⟨e₂, h₂⟩ := h₁.flushValue .zset
  obtain ⟨e₃, h₃⟩ := h₂.flushValue .geo
  obtain ⟨e₄, h₄⟩ := h₃.flushValue .list
  obtain ⟨e₅, h₅⟩ := h₄.flushValue .hash
  obtain ⟨e₆, h₆⟩ := h₅.flushJSONValue
  refine ⟨?_, h₆⟩
  simp only [LruItem.flush]
  exact congrArg₂ or (congrArg₂ or (congrArg₂ or (congrArg₂ or (congrArg₂ or e₁ e₂) e₃) e₄) e₅) e₆

theorem load_eq (m : Mode) (hhas : a.entry.has m.kind.flag = true) :
    m.kind.load b = m.kind.load a := by
  rw [Kind.load, h.slot m hhas, h.entry]
  rfl

/-- Looking at the document leaves twins behind. -/
theorem jDoc (hhas : a.entry.has flagJSON = true) :
    Option.Rel (fun p q => q.1 = p.1 ∧ Twin p.2 q.2) (Store.jDoc a) (Store.jDoc b) := by
  obtain ⟨hcache, hdirty⟩ := h.doc hhas
  unfold Store.jDoc
  rw [hcache, hdirty, h.entry]
  split
  · exact .some ⟨rfl, h⟩
  · split
    · split
      · exact .none
      · exact .some ⟨rfl, h.note rfl _ _⟩
    · exact .some ⟨rfl, h⟩

end Twin

def twins : Likeness LruItem LruItem where
  R := Twin
  Q := Twin
  spent _ _ _ := False
  same := id
  entry {a b} h := ⟨a.entry.value, h.entry⟩
  value h _ _ _ := congrArg Entry.value h.entry
  fresh e := .refl _
  put h e hflags := .of_uncached rfl hflags
  bits h _ value := h.put rfl
  touch {a b} h key front := by
    obtain ⟨hflushed, hafter⟩ := h.flush
    rw [touch_eq key a, touch_eq key b, show (Stored.flush b).2 = (Stored.flush a).2 from hflushed,
      show Stored.entry (Stored.flush b).1 = Stored.entry (Stored.flush a).1 from hafter.entry]
    split
    · exact .write _ _ _ _ hafter
    · exact .amend _ _ _ hafter
  flush h := h.flush.2.entry

theorem twins_carries (m : Mode) : twins.Carries (lazily.slot m) (lazily.slot m) where
  flag := rfl
  new := rfl
  encode := rfl
  decode := rfl
  load h hhas := h.load_eq m hhas
  note {a b} _ h hhas s hload := by
    simp only [lazily, Kind.lazy, h.slot m hhas]
    cases (m.kind.slot a).cache with
    | some _ => exact .keep
    | none => exact .amend _ _ _ (h.setSlot m _)
  commit {a b} _ h _ key s version expireAt := by
    refine .write _ _ _ _ ?_
    rw [h.entry]
    exact .of_mode m rfl _
  item e s := .refl _

theorem twins_carriesDoc : twins.CarriesDoc lazily.doc lazily.doc where
  clean h hhas := congrArg not (h.doc hhas).2
  value h _ _ := congrArg Entry.value h.entry
  doc h hhas := h.jDoc hhas
  replaced {a b} h doc version expireAt := by
    have hentry : b.entry = a.entry := h.entry
    refine ⟨?_, ?_⟩
    · change Twin (jReplaced a doc version expireAt) (jReplaced b doc version expireAt)
      unfold jReplaced
      rw [hentry]
      exact .of_json rfl doc
    · change (jReplaced b doc version expireAt).entry = (jReplaced a doc version expireAt).entry
      simp only [jReplaced, hentry]
  item e doc := .refl _

theorem twins_matches : twins.Matches lazily lazily := ⟨twins_carries, twins_carriesDoc⟩

end Supercache
