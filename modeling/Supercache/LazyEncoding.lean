import Supercache.Accounting
import Supercache.JsonDepth
import Supercache.Likeness
import Supercache.Recreate

/-!
The store against the reference that has no caches. An item stands for the entry it has once its
dirty value is written out, and the reference holds that entry. A cached value is the one its
bytes decode to, or is dirty and will be encoded to such bytes. Costs agree because a dirty value
is charged at its exact size, so both evict alike.
-/
namespace Supercache

open Wire Lru Store JsonText

def LruItem.written (it : LruItem) : Entry := { it.entry with value := it.encoded }

/-- What the item caches for the modes of its entry is what the reference decodes. -/
structure LruItem.Faithful (it : LruItem) : Prop where
  sound : it.Sound
  kept : ∀ m : Mode, it.entry.has m.kind.flag = true → ∀ s, (m.kind.slot it).cache = some s →
    m.Storable s ∧ ((m.kind.slot it).dirty = false → m.kind.decode it.entry.value = some s)
  doc : it.entry.has flagJSON = true → it.jCache ≠ .null →
    JsonX.decode it.entry.value = some it.jCache
  unmixed : Unmixed it.entry.flags

namespace LruItem

variable {it : LruItem}

section Written

theorem written_of_bare (h : ∀ m : Mode, it.entry.has m.kind.flag = false) :
    it.written = it.entry := by
  rw [written, encoded_of_bare h]

theorem written_put (it : LruItem) {e : Entry} (h : Uncached e.flags) :
    ({ it with entry := e } : LruItem).written = e := by
  have hbare : ∀ m : Mode, ({ it with entry := e } : LruItem).entry.has m.kind.flag = false := h.has
  exact written_of_bare hbare

theorem written_new (e : Entry) : (LruItem.new e).written = e := by
  rw [written, encoded_new]
  rfl

theorem written_itemOf (m : Mode) (e : Entry) (s : m.Value) : (m.kind.itemOf e s).written = e := by
  rw [written, encoded_itemOf, Kind.itemOf, m.kind.entry_setSlot]
  rfl

theorem entryCost_written (key : Bytes) (it : LruItem) :
    entryCost key it.written = key.length + 64 + it.encoded.length := by
  have hlen : it.written.value.length = it.encoded.length := rfl
  rw [entryCost, Entry.cost, hlen]
  omega

theorem Sound.entry_flush_eq (h : it.Sound) : it.flush.1.entry = it.written := by
  obtain ⟨blob, hentry⟩ := it.entry_flush
  have hvalue := h.value_flush
  rw [hentry] at hvalue ⊢
  rw [written, ← hvalue]

theorem Sound.written_flush (h : it.Sound) : it.flush.1.written = it.written := by
  rw [written, h.encoded_flush, h.entry_flush_eq]
  rfl

/-- A mode of the entry is the dirty one, or nothing of the item is dirty. -/
theorem Sound.encoded_cases (h : it.Sound) {m : Mode} (hhas : it.entry.has m.kind.flag = true) :
    (it.encoded = it.entry.value ∧ m.kind.pending it = none) ∨
      ∃ s : m.Value, m.kind.slot it = ⟨some s, true⟩ ∧ it.encoded = m.kind.encode s := by
  rcases h.pending_cases with hnone | ⟨m', s, hflags, hslot⟩
  · exact .inl ⟨encoded_of_settled hnone, hnone m⟩
  · have hm : m' = m := by simpa [Mode.has_of_flags hflags] using hhas
    subst hm
    exact .inr ⟨s, hslot, encoded_of_pending hflags (Mode.pending_of_dirty hflags hslot)⟩

/-- Beside another flag than those of the five modes nothing is dirty. -/
theorem Sound.encoded_of_flag (h : it.Sound) {flag : ℕ}
    (hflag : ∀ m : Mode, m.kind.flag &&& flag = 0)
    (hhas : it.entry.has flag = true) : it.encoded = it.entry.value := by
  rcases h.pending_cases with hnone | ⟨m, s, hflags, -⟩
  · exact encoded_of_settled hnone
  · simp [Entry.has, hflags, hflag m] at hhas

end Written

namespace Faithful

variable {m : Mode} {s : m.Value}

/-- The reference decodes what the item has cached. -/
theorem load_eq (h : it.Faithful) (hhas : it.entry.has m.kind.flag = true) :
    m.kind.decode it.encoded = m.kind.load it := by
  rcases h.sound.encoded_cases hhas with ⟨hvalue, hpending⟩ | ⟨s, hslot, hencoded⟩
  · rw [hvalue, Kind.load]
    cases hcache : (m.kind.slot it).cache with
    | none => rfl
    | some s =>
      refine (h.kept m hhas s hcache).2 (Bool.eq_false_iff.mpr fun hdirty => ?_)
      have hslot : m.kind.slot it = ⟨some s, true⟩ := by rw [← hcache, ← hdirty]
      simp [Kind.pending, hslot, hhas] at hpending
  · have hcache : (m.kind.slot it).cache = some s := by rw [hslot]
    rw [hencoded, m.decode_encode s (h.kept m hhas s hcache).1, Kind.load, hcache]

theorem storable_of_load (h : it.Faithful) (hhas : it.entry.has m.kind.flag = true)
    (hload : m.kind.load it = some s) : m.Storable s :=
  m.storable_of_decode ((h.load_eq hhas).trans hload)

theorem of_uncached (h : it.Sound) (hflags : Uncached it.entry.flags) : it.Faithful where
  sound := h
  kept m hhas := absurd ((hflags.has m).symm.trans hhas) (by simp)
  doc hhas := by simp [Entry.has, hflags.json] at hhas
  unmixed := hflags.unmixed

theorem fresh {e : Entry} (h : Unmixed e.flags) : (LruItem.new e).Faithful where
  sound := sound_new e
  kept m _ s hcache := by
    rw [m.slot_new] at hcache
    cases hcache
  doc _ hnull := absurd rfl hnull
  unmixed := h

/-- One mode, its value cached. -/
theorem of_mode (h : it.Sound) (hflags : it.entry.flags = m.kind.flag)
    (hcache : (m.kind.slot it).cache = some s) (hstore : m.Storable s)
    (hdecode : (m.kind.slot it).dirty = false → m.kind.decode it.entry.value = some s) :
    it.Faithful where
  sound := h
  kept m' hhas s' hcache' := by
    have hm : m = m' := by simpa [Mode.has_of_flags hflags] using hhas
    subst hm
    obtain rfl := Option.some.inj (hcache.symm.trans hcache')
    exact ⟨hstore, hdecode⟩
  doc hhas := by simp [Entry.has, hflags, m.flag_and_json] at hhas
  unmixed hbloom := by simp [hflags, m.flag_and_bloom] at hbloom

/-- A document that is cached, or the null document. -/
theorem of_json (h : it.Sound) (hflags : it.entry.flags = flagJSON)
    (hdecode : JsonX.decode it.entry.value = some it.jCache) : it.Faithful where
  sound := h
  kept m hhas := by
    have hnot : flagJSON &&& m.kind.flag = 0 := by rw [Nat.and_comm, m.flag_and_json]
    simp [Entry.has, hflags, hnot] at hhas
  doc _ _ := hdecode
  unmixed hbloom := by
    have hnot : flagJSON &&& flagBloom = 0 := by decide
    simp [hflags, hnot] at hbloom

variable (h : it.Faithful)
include h

theorem flush : it.flush.1.Faithful := by
  rcases h.sound.pending_cases with hnone | ⟨m, s, hflags, hslot⟩
  · rw [(h.sound.settled hnone).flush]
    exact h
  · have hhas : it.entry.has m.kind.flag = true := by simp [Mode.has_of_flags hflags]
    have hcache : (m.kind.slot it).cache = some s := by rw [hslot]
    have hstore := (h.kept m hhas s hcache).1
    have hsound := h.sound.flush
    rw [Mode.flush_of_dirty hflags hslot] at hsound ⊢
    refine of_mode hsound ?_ (by rw [Mode.settle, m.kind.slot_setSlot]) hstore fun _ => ?_
    · rw [Mode.settle, m.kind.entry_setSlot]
      exact hflags
    · rw [Mode.settle, m.kind.entry_setSlot]
      exact m.decode_encode s hstore

theorem jCache {v : Json} (hsound : ({ it with jCache := v } : LruItem).Sound)
    (hdecode : JsonX.decode it.entry.value = some v) :
    ({ it with jCache := v } : LruItem).Faithful where
  sound := hsound
  kept m hhas s hcache := by
    rw [m.slot_jCache] at hcache ⊢
    exact h.kept m hhas s hcache
  doc _ _ := hdecode
  unmixed := h.unmixed

theorem decoded (hsound : (m.kind.setSlot it ⟨some s, (m.kind.slot it).dirty⟩).Sound)
    (hdecode : m.kind.decode it.entry.value = some s) :
    (m.kind.setSlot it ⟨some s, (m.kind.slot it).dirty⟩).Faithful where
  sound := hsound
  kept m' hhas s' hcache := by
    rw [m.kind.entry_setSlot] at hhas ⊢
    by_cases hm : m = m'
    · subst hm
      rw [m.kind.slot_setSlot] at hcache
      obtain rfl := Option.some.inj hcache
      exact ⟨m.storable_of_decode hdecode, fun _ => hdecode⟩
    · rw [Mode.slot_setSlot_of_ne hm] at hcache ⊢
      exact h.kept m' hhas s' hcache
  doc := by
    rw [m.kind.entry_setSlot, m.jCache_setSlot]
    exact h.doc
  unmixed := by
    rw [m.kind.entry_setSlot]
    exact h.unmixed

/-- The document of the item is the one its bytes decode to. -/
theorem jDoc_cases (hhas : it.entry.has flagJSON = true) :
    (Store.jDoc it = none ∧ JsonX.decode it.entry.value = none) ∨
      ∃ v, Store.jDoc it = some (v, { it with jCache := v }) ∧
        JsonX.decode it.entry.value = some v := by
  unfold Store.jDoc
  rw [if_neg (by simp [h.sound.json])]
  split
  · split
    next hdecode =>
      exact .inl ⟨rfl, hdecode⟩
    next v hdecode =>
      exact .inr ⟨v, rfl, hdecode⟩
  next hnull =>
    exact .inr ⟨it.jCache, rfl, h.doc hhas hnull⟩

end Faithful

end LruItem

/-- Whatever a call that fits does to a faithful item leaves a faithful item. -/
theorem Footprint.faithful {key : Bytes} {fits : Prop} {old : Option LruItem} {act : Act LruItem}
    (h : Footprint key fits old act) (hfits : fits) : act.Keeps (fun _ it => it.Faithful) old := by
  -- what is written is sound, by the accounting of the same footprint
  have hexact : ∀ {it : LruItem}, it.Sound →
      Exact key (key.length + 64 + it.encoded.length) it := fun hs => ⟨hs, rfl⟩
  cases h with
  | keep => exact trivial
  | remove => exact trivial
  | touch it front hold =>
    unfold Store.touch
    rcases hflush : flush it with ⟨it', _ | _⟩
    all_goals
      refine Act.found hold fun cost hfaithful => ?_
      rw [show it' = it.flush.1 from (congrArg Prod.fst hflush).symm]
      exact hfaithful.flush
  | same it front hold =>
    exact Act.found hold fun _ hfaithful => hfaithful
  | fresh e hflags => exact .fresh (hflags hfits)
  | renew it e mode hold hflags => exact fun _ _ _ _ => .fresh (hflags hfits)
  | cover it e mode hold hmode hflags =>
    refine Act.found hold fun cost hfaithful => ?_
    exact .of_uncached (exact_cover (hexact hfaithful.sound) e hmode).1 (hflags hfits)
  | bits it value front hold hbloom hlen =>
    refine Act.found hold fun cost hfaithful => ?_
    exact .of_uncached (exact_bits (hexact hfaithful.sound) hbloom hlen).1
      (hfaithful.unmixed (by simpa [Entry.has] using hbloom))
  | mode m act h =>
    cases h with
    | keep => exact trivial
    | remove => exact trivial
    | create e s hflags hvalue =>
      have hdecode : m.kind.decode e.value = some s := by
        rcases hvalue with ⟨hencoded, hstore⟩ | hdecode
        · rw [hencoded, m.decode_encode s (hstore hfits)]
        · exact hdecode
      have hentry : (m.kind.itemOf e s).entry = e := by rw [Kind.itemOf, m.kind.entry_setSlot]; rfl
      have hsound : Exact key (entryCost key e) (m.kind.itemOf e s) := exact_itemOf m e s
      refine .of_mode (m := m) hsound.1 (by rw [hentry, hflags])
        (by rw [Kind.itemOf, m.kind.slot_setSlot]) (m.storable_of_decode hdecode) fun _ => ?_
      rw [hentry, hdecode]
    | commit it s s' version expireAt hold hflag hload hstore =>
      refine Act.found hold fun cost hfaithful => ?_
      refine .of_mode (exact_commit (hexact hfaithful.sound) m s' version expireAt).1
        (by rw [m.kind.entry_setSlot]; rfl) (by rw [m.kind.slot_setSlot])
        (hstore hfits (hfaithful.storable_of_load hflag hload)) fun hclean => ?_
      rw [m.kind.slot_setSlot] at hclean
      cases hclean
    | decoded it s hold hflag hcache hdecode =>
      refine Act.found hold fun cost hfaithful => ?_
      exact hfaithful.decoded (exact_decoded (hexact hfaithful.sound) m s hcache).1 hdecode
  | doc act h =>
    cases h with
    | keep => exact trivial
    | remove => exact trivial
    | same it hold => exact Act.found hold fun _ hsame => hsame
    | document it it' doc hold hflag hdoc =>
      refine Act.found hold fun cost hfaithful => ?_
      rcases hfaithful.jDoc_cases hflag with ⟨hnone, -⟩ | ⟨v, hsome, hdecode⟩
      · cases hnone.symm.trans hdoc
      · obtain rfl := (Prod.mk.inj (Option.some.inj (hsome.symm.trans hdoc))).2
        exact hfaithful.jCache (exact_jCache (hexact hfaithful.sound) v).1 hdecode
    | replaced it doc version expireAt hold hstore =>
      refine Act.found hold fun cost hfaithful => ?_
      have hdoc : JsonX.Storable doc := by
        refine hstore hfits fun d a' hflag hd => ?_
        rcases hfaithful.jDoc_cases hflag with ⟨hnone, -⟩ | ⟨v, hsome, hdecode⟩
        · cases hnone.symm.trans hd
        · obtain rfl := (Prod.mk.inj (Option.some.inj (hsome.symm.trans hd))).1
          exact JsonX.storable_of_decode hdecode
      exact .of_json (exact_jReplaced (hexact hfaithful.sound) doc version expireAt).1 rfl
        (JsonX.decode_encode hdoc)
    | written e doc hflags hvalue =>
      have hdecode : JsonX.decode e.value = some doc := by
        rcases hvalue with ⟨hencoded, hstore⟩ | hdecode
        · rw [hencoded, JsonX.decode_encode (hstore hfits)]
        · exact hdecode
      exact .of_json (exact_jCache (hexact (LruItem.sound_new e)) doc).1 hflags hdecode

section Likeness

def writing : Likeness LruItem Entry where
  R it e := it.Faithful ∧ e = it.written
  Q it e := e = it.written
  spent key it cost := cost = entryCost key it.written
  same h := h.2
  entry {it e} h := ⟨it.encoded, h.2⟩
  value {it e} h flag hflag hhas := by
    rw [h.2]
    refine h.1.sound.encoded_of_flag (fun m => ?_) hhas
    rw [Nat.and_comm, (uncached_of_mem hflag).mode m]
  fresh e := (LruItem.written_new e).symm
  put {it _} _ _ hflags := (it.written_put hflags).symm
  bits {it _} h hbloom value := by
    have hhas : it.entry.has flagBloom = true := hbloom
    have hflags : Uncached ({ it.entry with value := value } : Entry).flags :=
      h.1.unmixed (by simpa [Entry.has] using hhas)
    exact (it.written_put hflags).symm
  touch {it e} h key front := by
    obtain ⟨hfaithful, rfl⟩ := h
    have hwritten : it.written = it.flush.1.written := hfaithful.sound.written_flush.symm
    rw [touch_eq key it, touch_eq key it.written]
    split
    · have hcost : entryCost key it.flush.1.entry = entryCost key it.written := by
        rw [hfaithful.sound.entry_flush_eq]
      exact .settled _ _ _ front hcost hwritten
    · exact .amend _ _ front hwritten
  flush h := h.2.trans h.1.sound.entry_flush_eq.symm

/-- A cached value stands for the bytes it will have. -/
theorem writing_carries (m : Mode) : writing.Carries (lazily.slot m) (eagerly.slot m) where
  flag := rfl
  new := rfl
  encode := rfl
  decode := rfl
  load {it e} h hhas := by
    obtain ⟨hfaithful, rfl⟩ := h
    exact hfaithful.load_eq hhas
  note {it e} _ h hhas s hload := by
    obtain ⟨hfaithful, rfl⟩ := h
    simp only [lazily, eagerly, Kind.lazy, Kind.eager]
    split
    · exact .keep
    next hcache =>
      refine .noted _ _ rfl (Eq.symm ?_)
      rw [LruItem.written, hfaithful.sound.encoded_decoded m s hcache, m.kind.entry_setSlot,
        LruItem.written]
  commit {it e} _ h hhas key s version expireAt := by
    obtain ⟨-, rfl⟩ := h
    have hwritten : (m.kind.setSlot { it with entry := m.kind.touched it.entry version expireAt }
        ⟨some s, true⟩).written =
        { m.kind.touched it.entry version expireAt with value := m.kind.encode s } := by
      rw [LruItem.written, LruItem.encoded_commit, m.kind.entry_setSlot]
    have hcost : entryCost key { m.kind.touched it.written version expireAt with
        value := m.kind.encode s } = key.length + 64 + m.kind.approxWireBytes s := by
      have hsame := LruItem.entryCost_written key (m.kind.setSlot
        { it with entry := m.kind.touched it.entry version expireAt } ⟨some s, true⟩)
      rw [hwritten, LruItem.encoded_commit, m.encode_length] at hsame
      exact hsame
    have hact : (eagerly.slot m).commit key it.written s version expireAt =
        .write (key.length + 64 + m.kind.approxWireBytes s)
          { m.kind.touched it.written version expireAt with value := m.kind.encode s }
          inPlace := by
      rw [← hcost]
      rfl
    rw [hact]
    exact .write _ _ _ _ hwritten.symm
  item e s := (LruItem.written_itemOf m e s).symm

/-- A cached document stands for the bytes it will have. -/
theorem writing_carriesDoc : writing.CarriesDoc lazily.doc eagerly.doc where
  clean h _ := by
    change true = !_
    rw [h.1.sound.json]
    rfl
  value h hhas _ := by
    rw [h.2]
    refine h.1.sound.encoded_of_flag (fun m => m.flag_and_json) hhas
  doc {it e} h hhas := by
    obtain ⟨hfaithful, rfl⟩ := h
    have hvalue : it.encoded = it.entry.value :=
      hfaithful.sound.encoded_of_flag (fun m => m.flag_and_json) hhas
    change Option.Rel _ (jDoc it) ((JsonX.decode it.encoded).map fun v => (v, it.written))
    rw [hvalue]
    rcases hfaithful.jDoc_cases hhas with ⟨hnone, hdecode⟩ | ⟨v, hsome, hdecode⟩
    · rw [hnone, hdecode]
      exact .none
    · have hsound : Exact [] (64 + it.encoded.length) it := ⟨hfaithful.sound, by simp⟩
      have hwritten : it.written = LruItem.written { it with jCache := v } := by
        rw [LruItem.written, LruItem.written, it.encoded_jCache v]
      rw [hsome, hdecode]
      exact .some ⟨rfl, hfaithful.jCache (exact_jCache hsound v).1 hdecode,
        hwritten⟩
  replaced {it e} h doc version expireAt := by
    obtain ⟨-, rfl⟩ := h
    have hbare : ∀ m : Mode, (jReplaced it doc version expireAt).entry.has m.kind.flag = false := by
      intro m
      have hnot : flagJSON &&& m.kind.flag = 0 := by rw [Nat.and_comm, m.flag_and_json]
      simp [Entry.has, jReplaced, rewritten, hnot]
    exact ⟨(LruItem.written_of_bare hbare).symm, rfl⟩
  item e doc := by
    change e = LruItem.written { LruItem.new e with jCache := doc }
    rw [LruItem.written, LruItem.encoded_jCache, LruItem.encoded_new]
    rfl

theorem writing_matches : writing.Matches lazily eagerly := ⟨writing_carries, writing_carriesDoc⟩

end Likeness

section Runs

variable {c : Call} {raw : Bytes} {val : Json}

theorem Call.Fits.pure (h : c.Fits) : c.Pure := by
  cases c with
  | cached c => exact trivial
  | plain c =>
    cases c with
    | acceptNegative e => exact h
    | _ => exact trivial

theorem Call.Fits.bare (h : c.Fits) : c.Bare := by
  cases c with
  | cached c => exact trivial
  | plain c =>
    cases c with
    | acceptNegative e => exact Uncached.has h
    | _ => exact trivial

/-- The reference store holds the entries that the items of the store stand for. -/
structure Mirrored (m : Mem) (m' : Memory Entry) : Prop where
  cache : m'.cache = m.cache.map LruItem.written
  tombstoneTTL : m'.tombstoneTTL = m.tombstoneTTL
  items : ∀ n ∈ m.cache.order, Exact n.key n.cost n.val ∧ n.val.Faithful

namespace Mirrored

variable {m : Mem} {m' : Memory Entry}

variable (h : Mirrored m m')
include h

theorem env_eq (now : ℤ) : m'.env now = m.env now := by
  rw [Memory.env, Memory.env, h.cache, h.tombstoneTTL]
  rfl

theorem lookup (key : Bytes) :
    m'.lookup key = (m.lookup key).map LruItem.written := by
  rw [Memory.lookup, h.cache, Cache.lookup_map]
  rfl

theorem rel (key : Bytes) :
    Option.Rel writing.R (m.lookup key) (m'.lookup key) := by
  rw [h.lookup]
  cases hlookup : m.lookup key with
  | none => exact .none
  | some it =>
    obtain ⟨n, hn, rfl⟩ := Option.map_eq_some_iff.mp hlookup
    exact .some ⟨(h.items n (m.wf.find_mem hn)).2, rfl⟩

/-- The cost of an item is that of its entry. -/
theorem spent {key : Bytes} {cost : ℕ}
    (hcost : ∀ it, m.lookup key = some it → writing.spent key it cost) :
    m.cache.Spent key cost := by
  intro n hn
  rw [show cost = entryCost key n.val.written from hcost n.val (Cache.lookup_of_find hn),
    (h.items n (m.wf.find_mem hn)).1.2, m.wf.find_key hn, LruItem.entryCost_written]

/-- Each call answers alike on store and reference. -/
theorem step (op : Op) (hfits : op.call.Fits) :
    (Supercache.step m op).2 = (eagerly.step m' op).2 ∧
      Mirrored (Supercache.step m op).1 (eagerly.step m' op).1 := by
  have hagree : writing.Agree op.key (op.call.verb op.key) (eagerly.verb op.key op.call) := by
    rw [Call.verb_eq]
    exact Likeness.agree_verb writing_matches op.call hfits.pure
  have hplan := hagree (m.env op.now) (m.lookup op.key) (m'.lookup op.key) (h.rel op.key)
  have hact : Act.Like (fun (it : LruItem) e => e = it.written) (m.cache.Spent op.key)
      ((m.cache.lookup op.key).map LruItem.written)
      (op.call.verb op.key (m.env op.now) (m.lookup op.key)).act
      (eagerly.verb op.key op.call (m.env op.now) (m'.lookup op.key)).act := by
    rw [show (m.cache.lookup op.key).map LruItem.written = m'.lookup op.key from
      (h.lookup op.key).symm]
    exact hplan.act.mono (fun _ _ => id) fun cost hcost => h.spent hcost
  have hcache : (eagerly.step m' op).1.cache =
      (Supercache.step m op).1.cache.map LruItem.written := by
    have hexec : (eagerly.step m' op).1.cache = m'.cache.exec (fun e : Entry => e.pinned op.now)
        (eagerly.verb op.key op.call (m.env op.now) (m'.lookup op.key)).act op.key := by
      rw [← h.env_eq op.now]
      rfl
    rw [hexec, h.cache]
    exact (m.wf.exec_map (fun _ => rfl) hact).symm
  have hafter : (eagerly.step m' op).1.lookup op.key =
      ((Supercache.step m op).1.lookup op.key).map LruItem.written := by
    rw [Memory.lookup, hcache, Cache.lookup_map]
    rfl
  refine ⟨?_, hcache, h.tombstoneTTL, ?_⟩
  · have hret : (eagerly.step m' op).2 =
        (eagerly.verb op.key op.call (m.env op.now) (m'.lookup op.key)).ret
          ((eagerly.step m' op).1.lookup op.key).isSome := by
      rw [← h.env_eq op.now]
      rfl
    rw [hret, hplan.ret, hafter, Option.isSome_map]
    rfl
  · intro n hn
    have hfootprint : Footprint op.key op.call.Fits (m.lookup op.key)
        (op.call.verb op.key (m.env op.now) (m.lookup op.key)).act := op.call.footprint hfits.bare
    exact ⟨m.wf.forall_exec (fun n hn => (h.items n hn).1) hfootprint.exact _ n hn,
      m.wf.forall_exec (P := fun _ _ it => it.Faithful) (fun n hn => (h.items n hn).2)
        (hfootprint.faithful hfits) _ n hn⟩

theorem answers_eq (ops : List Op) (hfits : ∀ op ∈ ops, op.call.Fits) :
    answers m ops = eagerly.answers m' ops := by
  induction ops generalizing m m' with
  | nil => rfl
  | cons op ops ih =>
    obtain ⟨hret, hafter⟩ := h.step op (hfits op List.mem_cons_self)
    rw [answers, Backend.answers, hret, ih hafter fun op hop =>
      hfits op (List.mem_cons_of_mem _ hop)]

end Mirrored

/-- Every run gives the answers of the reference store, which encodes on every mutation and
decodes on every read, as long as what is written under a path of a document stays within
the decoder's nesting bound. -/
theorem lazy_refines_eager (maxBytes tombstoneTTL : ℤ) (ops : List Op)
    (hfits : ∀ op ∈ ops, op.call.Fits) :
    answers (Memory.newMemory maxBytes tombstoneTTL) ops =
      eagerly.answers (Memory.newMemory maxBytes tombstoneTTL) ops :=
  Mirrored.answers_eq ⟨rfl, rfl, fun _ hn => absurd hn List.not_mem_nil⟩ ops hfits

def recycled : List Op :=
  [⟨0, [0x6B], .cached (.setAdd [7] 1 0)⟩, ⟨0, [0x6B], .cached (.setAdd [8] 2 0)⟩,
    ⟨0, [0x6B], .plain (.deleteIfVersion 3)⟩, ⟨0, [0x6B], .cached (.jSet [0x24] [0x37] 4 0 0)⟩,
    ⟨0, [0x6B], .cached (.setContains [7])⟩]

/-- A document over the tombstone of a dirty set. -/
theorem lazy_refines_eager_recycled :
    answers (Memory.newMemory 0 10) recycled = eagerly.answers (Memory.newMemory 0 10) recycled ∧
      (answers (Memory.newMemory 0 10) recycled).map Ret.applied =
        [true, true, true, true, false] := by
  have hjson : (Call.cached (.jSet [0x24] [0x37] 4 0 0)).Fits := by
    intro val p hval hp
    have hp' : JsonX.parsePath [0x24] = some [] := by decide +kernel
    have hval' : JsonX.decode [0x37] = some (.num [0x37]) := by rfl
    cases hp'.symm.trans hp
    cases hval'.symm.trans hval
    decide
  refine ⟨lazy_refines_eager 0 10 recycled fun op hop => ?_, by decide +kernel⟩
  simp only [recycled, List.mem_cons, List.not_mem_nil, or_false] at hop
  rcases hop with rfl | rfl | rfl | rfl | rfl
  · exact (by decide : [7].length < 2 ^ 64)
  · exact (by decide : [8].length < 2 ^ 64)
  · exact trivial
  · exact hjson
  · exact trivial

section Deep

variable {α : Type} [Stored α] (D : DocCarrier α) (key : Bytes) {raw : Bytes} {val : Json}

variable {a : α}

theorem DocCarrier.get_under_name (env : Env) {blob : Bytes}
    (hentry : entry a = ⟨blob, 1, 0, flagJSON⟩) (still : Bool) :
    (D.get [0x24, 0x2E, 0x61] env (some a)).ret still =
      (D.doc a).bind fun p => (JsonX.get p.1 [.key ['a']]).map JsonX.encode := by
  have hpath : JsonX.parsePath [0x24, 0x2E, 0x61] = some [.key ['a']] := by decide +kernel
  have hx : (entry a).expired env.now = false := by rw [hentry]; rfl
  have hflags : (entry a).flags = flagJSON := by rw [hentry]
  have ht : (entry a).isTombstone = false := Entry.has_of_flags hflags flagTombstone
  have hhas : (entry a).has flagJSON = true := Entry.has_of_flags hflags flagJSON
  simp only [DocCarrier.get, hx, ht, hhas, Bool.false_eq_true, Bool.not_true, or_self, if_false,
    hpath, reduceCtorEq, false_and]
  cases D.doc a <;> rfl

def underName (raw : Bytes) : List Op :=
  [⟨0, [0x6B], .cached (.jSet [0x24, 0x2E, 0x61] raw 1 0 0)⟩,
    ⟨0, [0x6B], .cached (.jGet [0x24, 0x2E, 0x61])⟩]

theorem Backend.answers_underName (B : Backend α) (hraw : JsonX.decode raw = some val)
    (hitem : B.doc.item ⟨JsonX.encode (.obj [(['a'], val)]), 1, 0, flagJSON⟩
      (.obj [(['a'], val)]) = a)
    (hentry : entry a = ⟨JsonX.encode (.obj [(['a'], val)]), 1, 0, flagJSON⟩) :
    (B.answers (Memory.newMemory 0 0) (underName raw))[1]? = some (.optBytes
      ((B.doc.doc a).bind fun p => (JsonX.get p.1 [.key ['a']]).map JsonX.encode)) := by
  have hlookup := (B.doc.perform_under_name [0x6B] hraw).2
  rw [hitem] at hlookup
  refine congrArg some ?_
  have hret := Memory.perform_ret ((Memory.newMemory 0 0 : Memory α).perform 0 [0x6B]
    (B.doc.set [0x6B] [0x24, 0x2E, 0x61] raw 1 0 0)).1 0 [0x6B]
    ((B.doc.get [0x24, 0x2E, 0x61]).map Ret.optBytes)
  rw [hlookup] at hret
  refine Eq.trans hret ?_
  exact congrArg Ret.optBytes (B.doc.get_under_name _ hentry _)

end Deep

theorem answers_eq_lazily (m : Mem) (ops : List Op) : answers m ops = lazily.answers m ops := by
  have hstep : step = lazily.step := by
    funext m op
    rw [step, Call.verb_eq]
    rfl
  induction ops generalizing m with
  | nil => rfl
  | cons op ops ih => rw [answers, Backend.answers, hstep, ih]

theorem answers_underName (hraw : JsonX.decode raw = some val) :
    (answers (Memory.newMemory 0 0) (underName raw))[1]? =
      some (.optBytes (some (JsonX.encode val))) := by
  rw [answers_eq_lazily, lazily.answers_underName hraw rfl rfl]
  rfl

/-- The store answers from the document it has cached; the reference cannot decode it. -/
theorem lazy_too_deep :
    let raw := JsonX.encode (deep JsonX.maxNestingDepth)
    (answers (Memory.newMemory 0 0) (underName raw))[1]? = some (.optBytes (some raw)) ∧
      (eagerly.answers (Memory.newMemory 0 0) (underName raw))[1]? = some (.optBytes none) := by
  have hval : JsonX.Storable (deep JsonX.maxNestingDepth) := fits_deep JsonX.maxNestingDepth
  refine ⟨answers_underName (JsonX.decode_encode hval), ?_⟩
  rw [eagerly.answers_underName (JsonX.decode_encode hval) rfl rfl]
  simp [eagerly, eagerDoc, decode_under_name hval (depth_deep JsonX.maxNestingDepth)]

end Runs

end Supercache
