import Supercache.LruFront
import Supercache.Footprint

/-!
Byte accounting of the store. A dirty value is charged at its estimated size while its bytes are
still the old ones, so the cost of an item is right only if the estimate is exact and at most one
value can be written out. Both hold in every run in which no negative entry carries the flag of a
cached mode.
-/
namespace Supercache

open Wire Lru JsonText

def LruItem.encoded (it : LruItem) : Bytes :=
  ((setKind.pending it).or ((zKind.pending it).or ((gKind.pending it).or
    ((lKind.pending it).or (hKind.pending it))))).getD it.entry.value

/-- A dirty slot has a value, and its mode is the only one of the entry. -/
structure LruItem.Sound (it : LruItem) : Prop where
  backed : ∀ m : Mode, (m.kind.slot it).Backed
  single : ∀ m : Mode, (m.kind.slot it).dirty = true → it.entry.has m.kind.flag = true →
    it.entry.flags = m.kind.flag
  json : it.jDirty = false

section Pending

variable {it : LruItem}

variable {m : Mode} {s : m.Value}

theorem Mode.has_of_flags {e : Entry} (h : e.flags = m.kind.flag) (m' : Mode) :
    e.has m'.kind.flag = decide (m = m') := by
  by_cases hm : m = m'
  · subst hm
    have hself := m.flag_and_self
    simpa [Entry.has, h] using hself
  · simp [Entry.has, h, Mode.flag_and_flag hm, hm]

theorem LruItem.encoded_of_settled (h : ∀ m : Mode, m.kind.pending it = none) :
    it.encoded = it.entry.value := by
  have hset : setKind.pending it = none := h .set
  have hz : zKind.pending it = none := h .zset
  have hg : gKind.pending it = none := h .geo
  have hl : lKind.pending it = none := h .list
  have hh : hKind.pending it = none := h .hash
  simp [LruItem.encoded, hset, hz, hg, hl, hh]

theorem LruItem.encoded_congr {it' : LruItem}
    (h : ∀ m : Mode, m.kind.pending it' = m.kind.pending it)
    (hvalue : it'.entry.value = it.entry.value) : it'.encoded = it.encoded := by
  have hset : setKind.pending it' = setKind.pending it := h .set
  have hz : zKind.pending it' = zKind.pending it := h .zset
  have hg : gKind.pending it' = gKind.pending it := h .geo
  have hl : lKind.pending it' = lKind.pending it := h .list
  have hh : hKind.pending it' = hKind.pending it := h .hash
  rw [LruItem.encoded, LruItem.encoded, hset, hz, hg, hl, hh, hvalue]

theorem Mode.pending_of_flags (hflags : it.entry.flags = m.kind.flag) {m' : Mode} (hm : m ≠ m') :
    m'.kind.pending it = none :=
  m'.kind.pending_of_not_has (by simp [Mode.has_of_flags hflags, hm])

theorem LruItem.encoded_of_pending {blob : Bytes} (hflags : it.entry.flags = m.kind.flag)
    (h : m.kind.pending it = some blob) : it.encoded = blob := by
  have hall (m' : Mode) : m'.kind.pending it = if m = m' then some blob else none := by
    by_cases hm : m = m'
    · subst hm
      rw [if_pos rfl, h]
    · rw [if_neg hm, Mode.pending_of_flags hflags hm]
  have hset : setKind.pending it = _ := hall .set
  have hz : zKind.pending it = _ := hall .zset
  have hg : gKind.pending it = _ := hall .geo
  have hl : lKind.pending it = _ := hall .list
  have hh : hKind.pending it = _ := hall .hash
  rw [LruItem.encoded, hset, hz, hg, hl, hh]
  cases m <;> rfl

def Mode.settle (m : Mode) (it : LruItem) (s : m.Value) : LruItem :=
  m.kind.setSlot { it with entry := { it.entry with value := m.kind.encode s } } ⟨some s, false⟩

theorem Kind.flushValue_of_none {σ : Type} (K : Kind σ) (h : K.pending it = none) :
    K.flushValue it = (it, false) := by
  simp only [Kind.flushValue, h]

variable (hflags : it.entry.flags = m.kind.flag)
include hflags

theorem Mode.pending_of_dirty
    (hslot : m.kind.slot it = ⟨some s, true⟩) : m.kind.pending it = some (m.kind.encode s) := by
  have hhas : it.entry.has m.kind.flag = true := by simp [Mode.has_of_flags hflags]
  simp only [Kind.pending, hslot, hhas, if_true]

/-- With one mode in the flags, the flush of the item is the flush of that mode. -/
theorem Mode.flush_of_flags :
    it.flush = m.kind.flushValue it := by
  have hbefore : ∀ m' : Mode, m ≠ m' → m'.kind.flushValue it = (it, false) :=
    fun m' hm => m'.kind.flushValue_of_none (Mode.pending_of_flags hflags hm)
  have hflags' : (m.kind.flushValue it).1.entry.flags = m.kind.flag := by
    obtain ⟨blob, hentry⟩ := m.kind.entry_flushValue it
    rw [hentry]
    exact hflags
  rcases hself : m.kind.flushValue it with ⟨it', flushed⟩
  rw [hself] at hflags'
  dsimp only at hflags'
  have hafter : ∀ m' : Mode, m ≠ m' → m'.kind.flushValue it' = (it', false) :=
    fun m' hm => m'.kind.flushValue_of_none (Mode.pending_of_flags hflags' hm)
  have hj : flushJSONValue it' = (it', false) := by
    have hnot : it'.entry.has flagJSON = false := by simp [Entry.has, hflags', m.flag_and_json]
    simp [flushJSONValue, hnot]
  -- every flush before that of the mode sees the item, every later one what the mode left
  have hset : .set ≠ m → setKind.flushValue it = (it, false) := fun hm => hbefore .set hm.symm
  have hz : .zset ≠ m → zKind.flushValue it = (it, false) := fun hm => hbefore .zset hm.symm
  have hg : .geo ≠ m → gKind.flushValue it = (it, false) := fun hm => hbefore .geo hm.symm
  have hl : .list ≠ m → lKind.flushValue it = (it, false) := fun hm => hbefore .list hm.symm
  have hz' : .zset ≠ m → zKind.flushValue it' = (it', false) := fun hm => hafter .zset hm.symm
  have hg' : .geo ≠ m → gKind.flushValue it' = (it', false) := fun hm => hafter .geo hm.symm
  have hl' : .list ≠ m → lKind.flushValue it' = (it', false) := fun hm => hafter .list hm.symm
  have hh' : .hash ≠ m → hKind.flushValue it' = (it', false) := fun hm => hafter .hash hm.symm
  unfold LruItem.flush
  cases m <;> simp_all [Mode.kind]

/-- The decoded value of an entry of one mode is the same before and after a flush. -/
theorem Mode.load_flush :
    m.kind.load it.flush.1 = m.kind.load it := by
  rw [Mode.flush_of_flags hflags]
  unfold Kind.flushValue
  split
  next blob hpending =>
    unfold Kind.load
    rw [m.kind.slot_setSlot]
    cases hcache : (m.kind.slot it).cache with
    | some s => rfl
    | none =>
      unfold Kind.pending at hpending
      split at hpending
      next hslot =>
        rw [hslot] at hcache
        cases hcache
      · cases hpending
  · rfl

theorem Mode.flush_of_dirty
    (hslot : m.kind.slot it = ⟨some s, true⟩) : it.flush = (m.settle it s, true) := by
  rw [Mode.flush_of_flags hflags]
  simp only [Kind.flushValue, Mode.pending_of_dirty hflags hslot, hslot]
  rfl

end Pending

namespace LruItem

variable {it : LruItem}

/-- A sound item has one value to write out, or none. -/
theorem Sound.pending_cases (h : it.Sound) : (∀ m : Mode, m.kind.pending it = none) ∨
      ∃ (m : Mode) (s : m.Value), it.entry.flags = m.kind.flag ∧
        m.kind.slot it = ⟨some s, true⟩ := by
  by_cases hall : ∀ m : Mode, m.kind.pending it = none
  · exact Or.inl hall
  · obtain ⟨m, hm⟩ := not_forall.mp hall
    have hdirty : (m.kind.slot it).dirty = true := by
      by_contra hclean
      exact hm (m.kind.pending_of_clean (Bool.eq_false_iff.mpr hclean))
    have hhas : it.entry.has m.kind.flag = true := by
      by_contra hnot
      exact hm (m.kind.pending_of_not_has (Bool.eq_false_iff.mpr hnot))
    obtain ⟨s, hs⟩ := Option.ne_none_iff_exists'.mp (h.backed m hdirty)
    refine Or.inr ⟨m, s, h.single m hdirty hhas, ?_⟩
    rw [← hs, ← hdirty]

theorem Sound.settled (h : it.Sound) (hnone : ∀ m : Mode, m.kind.pending it = none) : it.Settled :=
  ⟨hnone .set, hnone .zset, hnone .geo, hnone .list, hnone .hash, by rw [h.json, Bool.false_and]⟩

/-- A flush writes the encoded value into the entry. -/
theorem Sound.value_flush (h : it.Sound) : it.flush.1.entry.value = it.encoded := by
  rcases h.pending_cases with hnone | ⟨m, s, hflags, hslot⟩
  · rw [(h.settled hnone).flush, encoded_of_settled hnone]
  · rw [Mode.flush_of_dirty hflags hslot,
      encoded_of_pending hflags (Mode.pending_of_dirty hflags hslot), Mode.settle,
      m.kind.entry_setSlot]

/-- Nothing is pending in an item none of whose modes is in the flags. -/
theorem encoded_of_bare (h : ∀ m : Mode, it.entry.has m.kind.flag = false) :
    it.encoded = it.entry.value :=
  encoded_of_settled fun m => m.kind.pending_of_not_has (h m)

theorem encoded_of_clean (h : ∀ m : Mode, (m.kind.slot it).dirty = false) :
    it.encoded = it.entry.value :=
  encoded_of_settled fun m => m.kind.pending_of_clean (h m)

/-- A write to the slot of one mode leaves the other slots sound. -/
theorem Sound.setSlot (h : it.Sound) (m : Mode) (s : Slot m.Value) (hback : s.Backed)
    (hsingle : s.dirty = true → it.entry.has m.kind.flag = true →
      it.entry.flags = m.kind.flag) : (m.kind.setSlot it s).Sound where
  backed m' := by
    by_cases hm : m = m'
    · subst hm
      rw [m.kind.slot_setSlot]
      exact hback
    · rw [Mode.slot_setSlot_of_ne hm]
      exact h.backed m'
  single m' := by
    rw [m.kind.entry_setSlot]
    by_cases hm : m = m'
    · subst hm
      rw [m.kind.slot_setSlot]
      exact hsingle
    · rw [Mode.slot_setSlot_of_ne hm]
      exact h.single m'
  json := by
    rw [m.jDirty_setSlot]
    exact h.json

/-- Another entry around the same slots, when it brings none of their modes back. -/
theorem Sound.put (h : it.Sound) (e : Entry)
    (hsingle : ∀ m : Mode, (m.kind.slot it).dirty = true → e.has m.kind.flag = true →
      e.flags = m.kind.flag) : ({ it with entry := e } : LruItem).Sound where
  backed m := by
    rw [m.slot_put]
    exact h.backed m
  single m := by
    rw [m.slot_put]
    exact hsingle m
  json := h.json

theorem sound_new (e : Entry) : (LruItem.new e).Sound where
  backed m := by
    rw [m.slot_new]
    exact nofun
  single m := by
    rw [m.slot_new]
    exact nofun
  json := rfl

theorem encoded_new (e : Entry) : (LruItem.new e).encoded = e.value :=
  encoded_of_clean fun m => by
    rw [m.slot_new]
    rfl

theorem Sound.flush (h : it.Sound) : it.flush.1.Sound := by
  rcases h.pending_cases with hnone | ⟨m, s, hflags, hslot⟩
  · rw [(h.settled hnone).flush]
    exact h
  · rw [Mode.flush_of_dirty hflags hslot]
    have hput : ({ it with entry := { it.entry with value := m.kind.encode s } } : LruItem).Sound :=
      h.put _ h.single
    exact hput.setSlot m ⟨some s, false⟩ nofun nofun

theorem Sound.encoded_flush (h : it.Sound) : it.flush.1.encoded = it.encoded := by
  rw [← h.flush.value_flush, it.flush_flush, h.value_flush]

/-- The value of a mutation, still to be written out. -/
theorem encoded_commit (it : LruItem) (m : Mode) (s : m.Value) (version : ℕ) (expireAt : ℤ) :
    (m.kind.setSlot { it with entry := m.kind.touched it.entry version expireAt }
      ⟨some s, true⟩).encoded = m.kind.encode s := by
  have hflags : (m.kind.setSlot { it with entry := m.kind.touched it.entry version expireAt }
      ⟨some s, true⟩).entry.flags = m.kind.flag := by
    rw [m.kind.entry_setSlot]
    rfl
  exact encoded_of_pending hflags (Mode.pending_of_dirty hflags (m.kind.slot_setSlot _ _))

theorem encoded_itemOf (m : Mode) (e : Entry) (s : m.Value) :
    (m.kind.itemOf e s).encoded = e.value := by
  rw [encoded_of_clean, Kind.itemOf, m.kind.entry_setSlot]
  · rfl
  · intro m'
    by_cases hm : m = m'
    · subst hm
      rw [Kind.itemOf, m.kind.slot_setSlot]
    · rw [Kind.itemOf, Mode.slot_setSlot_of_ne hm, m'.slot_new]
      rfl

theorem Sound.clean_of_no_cache (h : it.Sound) {m : Mode}
    (hcache : (m.kind.slot it).cache = none) : (m.kind.slot it).dirty = false := by
  by_contra hdirty
  exact h.backed m (Bool.not_eq_false _ ▸ hdirty) hcache

/-- A mode that is decoded was not dirty, and its value is not written out. -/
theorem Sound.encoded_decoded (h : it.Sound) (m : Mode) (s : m.Value)
    (hcache : (m.kind.slot it).cache = none) :
    (m.kind.setSlot it ⟨some s, (m.kind.slot it).dirty⟩).encoded = it.encoded := by
  have hclean := h.clean_of_no_cache hcache
  rw [hclean]
  refine encoded_congr (fun m' => ?_) (by rw [m.kind.entry_setSlot])
  by_cases hm : m = m'
  · subst hm
    rw [m.kind.pending_of_clean hclean, m.kind.pending_of_clean (by rw [m.kind.slot_setSlot])]
  · exact m'.kind.pending_congr it _ (Mode.slot_setSlot_of_ne hm it _)
      (by rw [m.kind.entry_setSlot])

theorem encoded_jCache (it : LruItem) (v : Json) :
    ({ it with jCache := v } : LruItem).encoded = it.encoded := by
  exact encoded_congr (fun m => m.kind.pending_congr it _ (m.slot_jCache it v) rfl) rfl

end LruItem

/-- The item is sound and charged for its key, the envelope and its encoded value. -/
def Exact (key : Bytes) (cost : ℕ) (it : LruItem) : Prop :=
  it.Sound ∧ cost = key.length + 64 + it.encoded.length

section Exact

variable {key : Bytes} {it : LruItem}

theorem exact_entryCost {e : Entry} (h : it.Sound) (hvalue : it.encoded = e.value) :
    Exact key (entryCost key e) it := by
  refine ⟨h, ?_⟩
  rw [hvalue, entryCost, Entry.cost]
  omega

variable {cost : ℕ}

theorem Exact.amend {it' : LruItem} (h : Exact key cost it) (hsound : it'.Sound)
    (hlen : it'.encoded.length = it.encoded.length) : Exact key cost it' :=
  ⟨hsound, by rw [hlen]; exact h.2⟩

theorem exact_commit (h : Exact key cost it) (m : Mode) (s : m.Value) (version : ℕ) (expireAt : ℤ) :
    Exact key (key.length + 64 + m.kind.approxWireBytes s)
      (m.kind.setSlot { it with entry := m.kind.touched it.entry version expireAt }
        ⟨some s, true⟩) := by
  have hflags : (m.kind.touched it.entry version expireAt).flags = m.kind.flag := rfl
  -- the other modes are no longer in the flags
  have hput : ({ it with entry := m.kind.touched it.entry version expireAt } : LruItem).Sound := by
    refine h.1.put _ fun m' _ hhas => ?_
    rw [Mode.has_of_flags hflags, decide_eq_true_eq] at hhas
    rw [← hhas]
    exact hflags
  refine ⟨hput.setSlot m ⟨some s, true⟩ nofun fun _ _ => hflags, ?_⟩
  rw [LruItem.encoded_commit, m.encode_length]

theorem exact_itemOf (m : Mode) (e : Entry) (s : m.Value) :
    Exact key (entryCost key e) (m.kind.itemOf e s) :=
  exact_entryCost ((LruItem.sound_new e).setSlot m ⟨some s, false⟩ nofun nofun)
    (LruItem.encoded_itemOf m e s)

variable (h : Exact key cost it)
include h

theorem exact_decoded (m : Mode) (s : m.Value)
    (hcache : (m.kind.slot it).cache = none) :
    Exact key cost (m.kind.setSlot it ⟨some s, (m.kind.slot it).dirty⟩) := by
  have hclean := h.1.clean_of_no_cache hcache
  refine h.amend (h.1.setSlot m _ ?_ ?_) (by rw [h.1.encoded_decoded m s hcache])
  · rw [hclean]
    exact nofun
  · rw [hclean]
    exact nofun

/-- The bits of a filter change, and no value of the item is pending. -/
theorem exact_bits {value : Bytes} (hbloom : it.entry.has flagBloom = true)
    (hlen : value.length = it.entry.value.length) :
    Exact key cost { it with entry := { it.entry with value := value } } := by
  have hclean : ∀ m : Mode, m.kind.pending it = none := by
    rcases h.1.pending_cases with hnone | ⟨m, s, hflags, -⟩
    · exact hnone
    · rw [Entry.has, hflags, m.flag_and_bloom] at hbloom
      simp at hbloom
  refine h.amend (h.1.put _ h.1.single) ?_
  rw [LruItem.encoded_of_settled hclean, ← hlen, LruItem.encoded_of_settled fun m => ?_]
  exact (m.kind.pending_congr it _ (m.slot_put it { it.entry with value := value })
    rfl).trans (hclean m)

theorem exact_cover (e : Entry)
    (hmode : ∀ m : Mode, e.has m.kind.flag = false) :
    Exact key (entryCost key e) { it with entry := e } := by
  refine exact_entryCost (h.1.put e fun m _ hhas => ?_) (LruItem.encoded_of_bare hmode)
  rw [hmode m] at hhas
  simp at hhas

theorem exact_jCache (v : Json) :
    Exact key cost { it with jCache := v } := by
  refine h.amend ⟨fun m => ?_, fun m => ?_, h.1.json⟩ ?_
  · rw [m.slot_jCache]
    exact h.1.backed m
  · rw [m.slot_jCache]
    exact h.1.single m
  · rw [LruItem.encoded_jCache]

theorem exact_jReplaced (doc : Json) (version : ℕ) (expireAt : ℤ) :
    Exact key (entryCost key (Store.jReplaced it doc version expireAt).entry)
      (Store.jReplaced it doc version expireAt) := by
  have hslot : ∀ m : Mode, m.kind.slot (Store.jReplaced it doc version expireAt) =
      m.kind.slot it := by
    intro m
    cases m <;> rfl
  have hhas : ∀ m : Mode, (Store.jReplaced it doc version expireAt).entry.has m.kind.flag =
      false := by
    intro m
    have hand : flagJSON &&& m.kind.flag = 0 := by rw [Nat.and_comm, m.flag_and_json]
    simp [Entry.has, Store.jReplaced, Store.rewritten, hand]
  refine exact_entryCost ⟨fun m => ?_, fun m _ h => ?_, rfl⟩ (LruItem.encoded_of_bare hhas)
  · rw [hslot m]
    exact h.1.backed m
  · rw [hhas m] at h
    simp at h

end Exact

/-- Whatever a call does to an exact item leaves an exact item. -/
theorem Footprint.exact {key : Bytes} {fits : Prop} {old : Option LruItem} {act : Act LruItem}
    (h : Footprint key fits old act) : act.Keeps (Exact key) old := by
  cases h with
  | keep => exact trivial
  | remove => exact trivial
  | touch it front hold =>
    unfold Store.touch
    split
    next it' hflush =>
      refine Act.found hold fun cost hexact => ?_
      have heq : it' = it.flush.1 := (congrArg Prod.fst hflush).symm
      rw [heq]
      exact exact_entryCost hexact.1.flush
        (by rw [hexact.1.encoded_flush, ← hexact.1.value_flush]; rfl)
    next it' hflush =>
      refine Act.found hold fun cost hexact => ?_
      have heq : it' = it.flush.1 := (congrArg Prod.fst hflush).symm
      rw [heq]
      exact hexact.amend hexact.1.flush (by rw [hexact.1.encoded_flush])
  | same it front hold =>
    exact Act.found hold fun _ hexact => hexact
  | fresh e => exact exact_entryCost (LruItem.sound_new e) (LruItem.encoded_new e)
  | renew it e =>
    intro _ _ _ _
    exact exact_entryCost (LruItem.sound_new e) (LruItem.encoded_new e)
  | cover it e mode hold hmode =>
    exact Act.found hold fun _ hexact => exact_cover hexact e hmode
  | bits it value front hold hbloom hlen =>
    exact Act.found hold fun _ hexact => exact_bits hexact hbloom hlen
  | mode m act h =>
    cases h with
    | keep => exact trivial
    | remove => exact trivial
    | create e s => exact exact_itemOf m e s
    | commit it s s' version expireAt hold =>
      exact Act.found hold fun _ hexact => exact_commit hexact m s' version expireAt
    | decoded it s hold hflag hcache =>
      exact Act.found hold fun _ hexact => exact_decoded hexact m s hcache
  | doc act h =>
    cases h with
    | keep => exact trivial
    | remove => exact trivial
    | same it hold => exact Act.found hold fun _ hsame => hsame
    | document it it' doc hold hflag hdoc =>
      refine Act.found hold fun cost hexact => ?_
      rw [(Store.jDoc_spec hdoc).1]
      exact exact_jCache hexact doc
    | replaced it doc version expireAt hold =>
      exact Act.found hold fun _ hexact => exact_jReplaced hexact doc version expireAt
    | written e doc =>
      have hnew : Exact key (entryCost key e) (LruItem.new e) :=
        exact_entryCost (LruItem.sound_new e) (LruItem.encoded_new e)
      exact exact_jCache hnew doc

namespace Accounting

inductive Event where
  | call (op : Op)
  | close

def advance (m : Mem) : Event → Mem
  | .call op => (step m op).1
  | .close => m.close

def runAll (m : Mem) (events : List Event) : Mem := events.foldl advance m

def Event.Bare : Event → Prop
  | .call op => op.call.Bare
  | .close => True

def Charged (s : Cache Bytes LruItem) : Prop := ∀ n ∈ s.order, Exact n.key n.cost n.val

variable {m : Mem} {key : Bytes} {it : LruItem} {now : ℤ}

theorem charged_step (h : Charged m.cache) {op : Op} (hbare : op.call.Bare) :
    Charged (step m op).1.cache :=
  m.wf.forall_exec h (op.call.footprint hbare).exact _

theorem charged_advance (h : Charged m.cache) {e : Event} (hbare : e.Bare) :
    Charged (advance m e).cache := by
  cases e with
  | call op => exact charged_step h hbare
  | close => exact fun _ hn => absurd hn List.not_mem_nil

theorem charged_run (h : Charged m.cache) (events : List Event) (hbare : ∀ e ∈ events, e.Bare) :
    Charged (runAll m events).cache := by
  induction events generalizing m with
  | nil => exact h
  | cons e events ih =>
    have hstep : Charged (advance m e).cache := charged_advance h (hbare e List.mem_cons_self)
    exact ih hstep fun e' he' => hbare e' (List.mem_cons_of_mem e he')

theorem bytes_rewrite (m : Mem) (n : Node Bytes LruItem) (val : LruItem) (clamp : Bool) :
    (m.cache.rewrite n n.cost val clamp).bytes = m.cache.bytes := by
  have hnonneg := m.wf.bytes_nonneg
  simp only [Cache.rewrite, Cache.charge, Cache.overwrite, sub_self, add_zero]
  exact if_neg fun h => by omega

/-- Writing out a value changes neither the cost of the item nor the total. -/
theorem bytes_touch (h : Charged m.cache) (pinned : LruItem → Bool) (hit : m.lookup key = some it)
    (front : Bool) :
    (m.cache.exec pinned (Store.touch key it front) key).bytes = m.cache.bytes := by
  obtain ⟨n, hn, rfl⟩ := Option.map_eq_some_iff.mp hit
  have hcost : entryCost key n.val.flush.1.entry = n.cost := by
    obtain ⟨hsound, hcost⟩ := h n (m.wf.find_mem hn)
    rw [hcost, m.wf.find_key hn, entryCost, Entry.cost, hsound.value_flush]
    omega
  have hfront : ∀ (val : LruItem) (clamp : Bool),
      (if front then (m.cache.rewrite n n.cost val clamp).moveToFront n
        else m.cache.rewrite n n.cost val clamp).bytes = m.cache.bytes := by
    intro val clamp
    cases front with
    | false => exact bytes_rewrite m n val clamp
    | true => exact bytes_rewrite m n val clamp
  rw [Cache.exec, Store.evicts_touch, if_neg Bool.false_ne_true]
  unfold Store.touch
  split
  next it' hflush =>
    have heq : it' = n.val.flush.1 := (congrArg Prod.fst hflush).symm
    have hcost' : entryCost key (entry it') = n.cost := by
      rw [heq]
      exact hcost
    simp only [Cache.apply, hn, hcost']
    exact hfront it' true
  · simp only [Cache.apply, hn]
    exact hfront _ false

section

variable (h : Charged m.cache) (hit : m.lookup key = some it) (hx : it.entry.expired now = false)
include h hit hx

theorem bytes_peek :
    (m.perform now key (Store.peek key)).1.cache.bytes = m.cache.bytes := by
  have hplan : (Store.peek key (m.env now) (m.lookup key)).act = Store.touch key it false := by
    rw [hit, Store.peek_of_unexpired (m.env now) it key hx]
  simp only [Memory.perform, hplan]
  exact bytes_touch h _ hit false

theorem bytes_get : (m.perform now key (Store.get key)).1.cache.bytes = m.cache.bytes := by
  cases ht : it.entry.isTombstone with
  | false =>
    have hplan : (Store.get key (m.env now) (m.lookup key)).act = Store.touch key it true := by
      rw [hit, Store.get_of_live (m.env now) it key hx ht]
    simp only [Memory.perform, hplan]
    exact bytes_touch h _ hit true
  | true =>
    have hplan : (Store.get key (m.env now) (m.lookup key)).act = .keep := by
      rw [hit, Store.get_of_tombstone (m.env now) it key hx ht]
    simp only [Memory.perform, hplan]
    rfl

end

def midway (m : Mem) (op : Op) (passes : ℕ) : Cache Bytes LruItem :=
  Cache.evictLoop (fun it => it.entry.pinned op.now) passes
    (m.cache.apply (op.call.verb op.key (m.env op.now) (m.lookup op.key)).act op.key)

theorem wf_midway (m : Mem) (op : Op) (passes : ℕ) : (midway m op passes).WF :=
  (Cache.evictLoop_induct (P := fun _ => True) (fun _ _ _ _ _ _ => trivial) passes _
    (m.wf.apply_spec _ _).1 trivial).1

theorem charged_midway (h : Charged m.cache) {op : Op} (hbare : op.call.Bare) (passes : ℕ) :
    Charged (midway m op passes) := by
  have happly : Charged (m.cache.apply
      (op.call.verb op.key (m.env op.now) (m.lookup op.key)).act op.key) :=
    m.wf.forall_apply h (op.call.footprint hbare).exact
  refine (Cache.evictLoop_induct (P := Charged) ?_ passes _ (m.wf.apply_spec _ _).1 happly).2
  -- an eviction only takes a node away
  intro s victim _ hs _ _ n hn
  exact hs n ((Cache.mem_removeElement s victim n).mp hn).1

/-- Index and list name the same nodes, the total is the sum of their costs, and neither the
removal of a node nor a new cost for it makes the total negative. -/
structure Counted (s : Cache Bytes LruItem) : Prop where
  index : ∀ key id, s.items.lookup key = some id ↔ ∃ n ∈ s.order, n.key = key ∧ n.id = id
  keys : (s.order.map Node.key).Nodup
  ids : (s.order.map Node.id).Nodup
  total : s.bytes = totalCost s.order
  removed : ∀ n ∈ s.order, 0 ≤ s.bytes - n.cost
  rewritten : ∀ n ∈ s.order, ∀ cost : ℕ, 0 ≤ s.bytes + ((cost : ℤ) - n.cost)

theorem counted_of_wf {s : Cache Bytes LruItem} (h : s.WF) : Counted s := by
  have hle : ∀ n ∈ s.order, (n.cost : ℤ) ≤ s.bytes := by
    intro n hn
    rw [h.bytes_eq]
    exact cost_le_totalCost hn
  refine ⟨h.lookup_iff, h.keys_nodup, h.ids_nodup, h.bytes_eq, fun n hn => ?_, fun n hn cost => ?_⟩
  · have := hle n hn
    omega
  · have := hle n hn
    omega

/-- The cost of every item is that of its key, the envelope and its encoded value. -/
def CostsExact (s : Cache Bytes LruItem) : Prop :=
  ∀ n ∈ s.order, n.cost = n.key.length + 64 + n.val.encoded.length

theorem Charged.costsExact {s : Cache Bytes LruItem} (h : Charged s) : CostsExact s :=
  fun n hn => (h n hn).2

/-- After every run, and inside every further call, index and list name the same nodes and the
total is their costs. If negative entries carry no flag of a mode with a cached value, every
single cost is exact as well, and writing out changes nothing. -/
theorem accounting_exact (maxBytes tombstoneTTL : ℤ) (events : List Event) :
    ∀ m, m = runAll (Memory.newMemory maxBytes tombstoneTTL) events →
      (Counted m.cache ∧ ∀ op passes, Counted (midway m op passes)) ∧
      ((∀ e ∈ events, e.Bare) →
        CostsExact m.cache ∧
        (∀ op, op.call.Bare → ∀ passes, CostsExact (midway m op passes)) ∧
        ∀ now key it, m.lookup key = some it → it.entry.expired now = false →
          (m.perform now key (Store.peek key)).1.cache.bytes = m.cache.bytes ∧
          (m.perform now key (Store.get key)).1.cache.bytes = m.cache.bytes) := by
  rintro m rfl
  refine ⟨⟨counted_of_wf (Memory.wf _), fun op passes => counted_of_wf (wf_midway _ op passes)⟩,
    fun hbare => ?_⟩
  have hcharged : Charged (runAll (Memory.newMemory maxBytes tombstoneTTL) events).cache :=
    charged_run (fun _ hn => absurd hn List.not_mem_nil) events hbare
  refine ⟨hcharged.costsExact, fun op hop passes => (charged_midway hcharged hop passes).costsExact,
    fun now key it hit hx => ?_⟩
  exact ⟨bytes_peek hcharged hit hx, bytes_get hcharged hit hx⟩

def busy : List Event :=
  [.call ⟨0, [1], .cached (.setAdd [7] 1 0)⟩, .call ⟨0, [1], .cached (.setAdd [8, 9] 2 0)⟩,
    .call ⟨0, [2], .plain (.set ⟨[5], 1, 0, 0⟩)⟩]

/-- The total counts the two members of the set while the entry has the bytes of one. A further
value takes the total over the budget, and before and after the eviction of the other one every
cost is exact. -/
theorem accounting_exact_busy :
    let m := runAll (Memory.newMemory 150 0) busy
    let op : Op := ⟨0, [3], .plain (.set ⟨[6], 1, 0, 0⟩)⟩
    m.cache.bytes = 136 ∧ CostsExact m.cache ∧
      (midway m op 0).bytes = 202 ∧ (midway m op 0).order.length = 3 ∧
      CostsExact (midway m op 0) ∧
      (midway m op 1).bytes = 136 ∧ (midway m op 1).order.length = 2 ∧
      CostsExact (midway m op 1) ∧ Counted (midway m op 1) := by
  intro m op
  have hbare : ∀ e ∈ busy, e.Bare := by
    intro e he
    simp only [busy, List.mem_cons, List.not_mem_nil, or_false] at he
    rcases he with rfl | rfl | rfl <;> exact trivial
  obtain ⟨⟨-, hmidway⟩, hexact⟩ := accounting_exact 150 0 busy m rfl
  obtain ⟨hcosts, hcosts', -⟩ := hexact hbare
  exact ⟨by decide +kernel, hcosts, by decide +kernel, by decide +kernel, hcosts' op trivial 0,
    by decide +kernel, by decide +kernel, hcosts' op trivial 1, hmidway op 1⟩

/-- A set with a dirty value is deleted; then a negative entry with the flag of a set is stored. -/
def revived : List Event :=
  [.call ⟨0, [1], .cached (.setAdd [7] 1 0)⟩, .call ⟨0, [1], .cached (.setAdd [8] 2 0)⟩,
    .call ⟨0, [1], .plain (.deleteIfVersion 3)⟩,
    .call ⟨0, [1], .plain (.acceptNegative ⟨[], 4, 0, flagNegative ||| flagSet⟩)⟩]

/-- The negative entry is charged for no bytes, but a read writes the old members into it. -/
theorem revived_value_uncounted :
    (runAll (Memory.newMemory 0 0) revived).cache.order.map
      (fun n => (n.cost, n.key.length + 64 + n.val.encoded.length)) = [(65, 69)] ∧
    (runAll (Memory.newMemory 0 0) revived).cache.bytes = 65 ∧
    ((runAll (Memory.newMemory 0 0) revived).perform 0 [1] (Store.peek [1])).1.cache.bytes =
      69 := by
  decide +kernel

end Accounting

end Supercache
