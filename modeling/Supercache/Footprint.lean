import Supercache.Ops
import Supercache.JsonPaths

/-!
What a call can do to the item of its key. Whatever the call, it leaves the item, drops it, writes
out what it held back, puts a new item or an entry without a cached value in its place, changes
the bits of a filter, or changes the cached value of its one mode. Invariants of items are proved
from this list.
-/
namespace Supercache

open Wire Lru JsonText

inductive Mode where
  | set
  | zset
  | geo
  | list
  | hash
deriving DecidableEq

namespace Mode

abbrev Value : Mode → Type
  | set => SetX.Members
  | zset => ZSet.Scores
  | geo => Geo.Index
  | list => ListX.Items
  | hash => HashX.Fields

def kind : (m : Mode) → Kind m.Value
  | set => setKind
  | zset => zKind
  | geo => gKind
  | list => lKind
  | hash => hKind

def Storable : (m : Mode) → m.Value → Prop
  | set => SetX.record.Storable
  | zset => ZSet.record.Storable
  | geo => Geo.record.Storable
  | list => ListX.Storable
  | hash => HashX.record.Storable

theorem decode_encode (m : Mode) (s : m.Value) (h : m.Storable s) :
    m.kind.decode (m.kind.encode s) = some s := by
  cases m with
  | set => exact SetX.decodeSet_encode s h
  | zset => exact ZSet.decode_encode s h
  | geo => exact Geo.decode_encode s h
  | list => exact ListX.decode_encode s h
  | hash => exact HashX.decode_encode s h

theorem storable_of_decode (m : Mode) {b : Bytes} {s : m.Value} (h : m.kind.decode b = some s) :
    m.Storable s := by
  cases m with
  | set => exact SetX.record.storable_of_decode ((SetX.decodeSet_eq b).symm.trans h)
  | zset => exact ZSet.record.storable_of_decode h
  | geo => exact Geo.record.storable_of_decode h
  | list => exact ListX.storable_of_decode h
  | hash => exact HashX.record.storable_of_decode h

theorem encode_length (m : Mode) (s : m.Value) :
    (m.kind.encode s).length = m.kind.approxWireBytes s := by
  cases m with
  | set => exact SetX.encode_length s
  | zset => exact ZSet.encode_length s
  | geo => exact Geo.encode_length s
  | list => exact ListX.encode_length s
  | hash => exact HashX.encode_length s

variable {m m' : Mode}

/-- No two modes share a flag. -/
theorem flag_and_flag (h : m ≠ m') : m.kind.flag &&& m'.kind.flag = 0 := by
  cases m <;> cases m' <;> first | rfl | exact absurd rfl h

theorem flag_and_self (m : Mode) : m.kind.flag &&& m.kind.flag ≠ 0 := by
  cases m <;> decide

theorem flag_and_json (m : Mode) : m.kind.flag &&& flagJSON = 0 := by
  cases m <;> rfl

theorem flag_and_bloom (m : Mode) : m.kind.flag &&& flagBloom = 0 := by
  cases m <;> rfl

theorem slot_setSlot_of_ne (h : m ≠ m') (it : LruItem) (s : Slot m.Value) :
    m'.kind.slot (m.kind.setSlot it s) = m'.kind.slot it := by
  cases m <;> cases m' <;> first | rfl | exact absurd rfl h

theorem slot_put (m : Mode) (it : LruItem) (e : Entry) :
    m.kind.slot { it with entry := e } = m.kind.slot it := by
  cases m <;> rfl

theorem slot_new (m : Mode) (e : Entry) : m.kind.slot (LruItem.new e) = Slot.clear := by
  cases m <;> rfl

theorem slot_jCache (m : Mode) (it : LruItem) (v : Json) :
    m.kind.slot { it with jCache := v } = m.kind.slot it := by
  cases m <;> rfl

theorem jDirty_setSlot (m : Mode) (it : LruItem) (s : Slot m.Value) :
    (m.kind.setSlot it s).jDirty = it.jDirty := by
  cases m <;> rfl

theorem jCache_setSlot (m : Mode) (it : LruItem) (s : Slot m.Value) :
    (m.kind.setSlot it s).jCache = it.jCache := by
  cases m <;> rfl

end Mode

structure Uncached (flags : ℕ) : Prop where
  mode : ∀ m : Mode, flags &&& m.kind.flag = 0
  json : flags &&& flagJSON = 0

/-- The bits of a filter, which change in place, are not also a cached value. -/
def Unmixed (flags : ℕ) : Prop := flags &&& flagBloom ≠ 0 → Uncached flags

theorem Uncached.unmixed {flags : ℕ} (h : Uncached flags) : Unmixed flags := fun _ => h

theorem Uncached.has {e : Entry} (h : Uncached e.flags) (m : Mode) : e.has m.kind.flag = false := by
  simp [Entry.has, h.mode m]

def uncachedFlags : List ℕ :=
  [flagTombstone, flagBloom, flagCounter, flagBitmap, flagHLL, flagTopK, flagCMS, flagVectorSet,
    flagStream]

theorem uncached_of_mem {flag : ℕ} (h : flag ∈ uncachedFlags) : Uncached flag := by
  have hmode : ∀ flag ∈ uncachedFlags, ∀ m : Mode, flag &&& m.kind.flag = 0 := by
    intro flag h m
    cases m <;> revert flag <;> decide
  have hjson : ∀ flag ∈ uncachedFlags, flag &&& flagJSON = 0 := by decide
  exact ⟨hmode flag h, hjson flag h⟩

/-- What a call on one of the five modes can do to the item `old` of its key. What `fits` stands
for are conditions on the arguments of the call. -/
inductive ModeFootprint (m : Mode) (key : Bytes) (fits : Prop) (old : Option LruItem) :
    Act LruItem → Prop
  | keep : ModeFootprint m key fits old .keep
  | remove : ModeFootprint m key fits old .remove
  | create (e : Entry) (s : m.Value) (hflags : e.flags = m.kind.flag)
    (hvalue : e.value = m.kind.encode s ∧ (fits → m.Storable s) ∨
      m.kind.decode e.value = some s) :
    ModeFootprint m key fits old (.insert (entryCost key e) (m.kind.itemOf e s))
  | commit (it : LruItem) (s s' : m.Value) (version : ℕ) (expireAt : ℤ) (hold : old = some it)
    (hflag : it.entry.has m.kind.flag = true) (hload : m.kind.load it = some s)
    (hstore : fits → m.Storable s → m.Storable s') :
    ModeFootprint m key fits old (m.kind.commit key it s' version expireAt)
  | decoded (it : LruItem) (s : m.Value) (hold : old = some it)
    (hflag : it.entry.has m.kind.flag = true) (hcache : (m.kind.slot it).cache = none)
    (hdecode : m.kind.decode it.entry.value = some s) :
    ModeFootprint m key fits old
      (.amend (m.kind.setSlot it ⟨some s, (m.kind.slot it).dirty⟩) false)

inductive DocFootprint (key : Bytes) (fits : Prop) (old : Option LruItem) : Act LruItem → Prop
  | keep : DocFootprint key fits old .keep
  | remove : DocFootprint key fits old .remove
  | same (it : LruItem) (hold : old = some it) : DocFootprint key fits old (.amend it false)
  | document (it it' : LruItem) (doc : Json) (hold : old = some it)
    (hflag : it.entry.has flagJSON = true) (hdoc : Store.jDoc it = some (doc, it')) :
    DocFootprint key fits old (.amend it' false)
  | replaced (it : LruItem) (doc : Json) (version : ℕ) (expireAt : ℤ) (hold : old = some it)
    (hstore : fits → (∀ d it', it.entry.has flagJSON = true → Store.jDoc it = some (d, it') →
      JsonX.Storable d) → JsonX.Storable doc) :
    DocFootprint key fits old
      (.write (entryCost key (Store.jReplaced it doc version expireAt).entry)
        (Store.jReplaced it doc version expireAt) Store.clamped)
  | written (e : Entry) (doc : Json) (hflags : e.flags = flagJSON)
    (hvalue : e.value = JsonX.encode doc ∧ (fits → JsonX.Storable doc) ∨
      JsonX.decode e.value = some doc) :
    DocFootprint key fits old (.insert (entryCost key e) (Store.jItem e doc))

inductive Footprint (key : Bytes) (fits : Prop) (old : Option LruItem) : Act LruItem → Prop
  | keep : Footprint key fits old .keep
  | remove : Footprint key fits old .remove
  | touch (it : LruItem) (front : Bool) (hold : old = some it) :
    Footprint key fits old (Store.touch key it front)
  | same (it : LruItem) (front : Bool) (hold : old = some it) :
    Footprint key fits old (.amend it front)
  | fresh (e : Entry) (hflags : fits → Unmixed e.flags) :
    Footprint key fits old (.insert (entryCost key e) (LruItem.new e))
  | renew (it : LruItem) (e : Entry) (mode : WriteMode) (hold : old = some it)
    (hflags : fits → Unmixed e.flags) :
    Footprint key fits old (.write (entryCost key e) (LruItem.new e) mode)
  | cover (it : LruItem) (e : Entry) (mode : WriteMode) (hold : old = some it)
    (hmode : ∀ m : Mode, e.has m.kind.flag = false) (hflags : fits → Uncached e.flags) :
    Footprint key fits old (.write (entryCost key e) { it with entry := e } mode)
  | bits (it : LruItem) (value : Bytes) (front : Bool) (hold : old = some it)
    (hbloom : it.entry.has flagBloom = true) (hlen : value.length = it.entry.value.length) :
    Footprint key fits old
      (.amend { it with entry := { it.entry with value := value } } front)
  | mode (m : Mode) (act : Act LruItem) (h : ModeFootprint m key fits old act) :
    Footprint key fits old act
  | doc (act : Act LruItem) (h : DocFootprint key fits old act) : Footprint key fits old act

/-- The answer does not matter. -/
theorem ModeFootprint.map {m : Mode} {key : Bytes} {fits : Prop} {old : Option LruItem} {ρ τ : Type}
    {v : Verb LruItem ρ} {f : ρ → τ} {env : Env}
    (h : ModeFootprint m key fits old (v env old).act) :
    ModeFootprint m key fits old (v.map f env old).act := h

inductive CachedFootprint (key : Bytes) (fits : Prop) (old : Option LruItem) (act : Act LruItem) :
    Prop
  | mode (m : Mode) (h : ModeFootprint m key fits old act)
  | doc (h : DocFootprint key fits old act)

namespace Store

variable {ρ : Type} {key : Bytes} {fits : Prop} {env : Env} {old : Option LruItem}

section Plain

theorem footprint_get : Footprint key fits old (get key env old).act := by
  unfold get
  rcases old with _ | it
  · dsimp only
    exact .keep
  · dsimp only
    split
    · exact .remove
    · split
      · exact .keep
      · exact .touch it true rfl

theorem footprint_peek : Footprint key fits old (peek key env old).act := by
  unfold peek
  rcases old with _ | it
  · dsimp only
    exact .keep
  · dsimp only
    split
    · exact .remove
    · exact .touch it false rfl

theorem footprint_peekVersion : Footprint key fits old (peekVersion env old).act := by
  unfold peekVersion
  split
  · exact .keep
  · split
    · exact .remove
    · exact .keep

section

variable (e : Entry) (hflags : fits → Unmixed e.flags)
include hflags

theorem footprint_replace :
    Footprint key fits old (replace old (entryCost key e) (fresh e)) := by
  cases old with
  | none => exact .fresh e hflags
  | some it => exact .renew it e inPlace rfl hflags

theorem footprint_set :
    Footprint key fits old (set key e env old).act := by
  unfold set
  split
  · exact .keep
  · exact footprint_replace e hflags

theorem footprint_acceptIfNewer :
    Footprint key fits old (acceptIfNewer key e env old).act := by
  rcases old with _ | it
  · simp only [acceptIfNewer]
    split
    · exact .keep
    · exact footprint_replace e hflags
  · simp only [acceptIfNewer]
    split
    · exact .keep
    · split
      · exact .keep
      · exact footprint_replace e hflags

end

theorem footprint_acceptNegative (e : Entry) (hmode : ∀ m : Mode, e.has m.kind.flag = false)
    (hflags : fits → Uncached e.flags) :
    Footprint key fits old (acceptNegative key e env old).act := by
  unfold acceptNegative
  split
  · exact .keep
  · split
    next it =>
      have hcover : Footprint key fits (some it)
          (.write (entryCost key e) (put it e) inPlace) := .cover it e inPlace rfl hmode hflags
      split
      · exact hcover
      · split
        · split
          · exact .keep
          · exact hcover
        · split
          · exact .keep
          · split
            · exact .keep
            · exact hcover
    · exact .fresh e fun h => (hflags h).unmixed

theorem footprint_delete : Footprint key fits old (delete env old).act := by
  unfold delete
  split
  · exact .keep
  · exact .remove

theorem footprint_deleteIfVersion (v : ℕ) :
    Footprint key fits old (deleteIfVersion key v env old).act := by
  have hflags : Uncached (tombstone env v).flags :=
    uncached_of_mem (show flagTombstone ∈ _ by decide)
  rcases old with _ | it
  · exact .fresh _ fun _ => hflags.unmixed
  · simp only [deleteIfVersion]
    split
    · exact .keep
    · exact .cover it _ inPlace rfl (fun m => hflags.has m) fun _ => hflags

theorem act_readLive (flag : ℕ) (miss : ρ) (f : Entry → ρ) (env : Env) (old : Option LruItem) :
    (readLive flag miss f env old).act = .keep ∨ (readLive flag miss f env old).act = .remove := by
  unfold readLive
  split
  · exact .inl rfl
  · split
    · exact .inr rfl
    · split <;> exact .inl rfl

theorem footprint_readLive (flag : ℕ) (miss : ρ) (f : Entry → ρ) :
    Footprint key fits old (readLive flag miss f env old).act := by
  rcases act_readLive flag miss f env old with hact | hact
  · rw [hact]
    exact .keep
  · rw [hact]
    exact .remove

theorem footprint_hasJSON : DocFootprint key fits old (hasJSON env old).act := by
  rcases act_readLive flagJSON false (fun _ => true) env old with hact | hact
  · rw [hasJSON, hact]
    exact .keep
  · rw [hasJSON, hact]
    exact .remove

variable {flag : ℕ}

/-- The gate looks at versions and flags only. -/
theorem installGate_congr {e e' : Entry} (hversion : e.version = e'.version)
    (hflags : e.flags = e'.flags) (flag version : ℕ) :
    installGate flag version e = installGate flag version e' := by
  have hhas : ∀ flag, e.has flag = e'.has flag := fun flag => by simp only [Entry.has, hflags]
  have htomb : e.isTombstone = e'.isTombstone := hhas flagTombstone
  simp only [installGate, hversion, htomb, hhas]

section

variable (hflag : Uncached flag)
include hflag

theorem footprint_plainInstall (gate : Entry → Option Tally)
    (blob : Bytes) (version : ℕ) (expireAt : ℤ) :
    Footprint key fits old (plainInstall gate flag key blob version expireAt env old).act := by
  have hinstall : Footprint key fits old
      (.insert (entryCost key ⟨blob, version, expireAt, flag⟩)
        (LruItem.new ⟨blob, version, expireAt, flag⟩)) := .fresh _ fun _ => hflag.unmixed
  unfold plainInstall
  split
  · exact hinstall
  · split
    · exact hinstall
    · split
      · exact .keep
      · exact hinstall

theorem footprint_writeOver (it : LruItem) (blob : Bytes) (expireAt : ℤ)
    (mode : WriteMode) :
    Footprint key fits (some it) (writeOver key it blob flag expireAt mode) := by
  have hrewritten : Uncached
      (rewritten it.entry blob (bump it.entry.version) flag expireAt).flags := hflag
  exact .cover it _ mode rfl (fun m => hrewritten.has m) fun _ => hrewritten

theorem footprint_mutatePlain (version : ℕ) (expireAt : ℤ) (refused : ρ)
    (op : Option Bytes → Outcome ρ) :
    Footprint key fits old (mutatePlain flag key version expireAt refused op env old).act := by
  have hcreate : ∀ (it : Option LruItem) (blob : Bytes), Footprint key fits it
      (.insert (entryCost key ⟨blob, 1, expireAt, flag⟩)
        (LruItem.new ⟨blob, 1, expireAt, flag⟩)) := fun _ _ => .fresh _ fun _ => hflag.unmixed
  unfold mutatePlain
  rcases old with _ | it
  · simp only
    split
    · exact .remove
    · exact hcreate none _
  · simp only
    split
    · split
      · exact .remove
      · exact hcreate (some it) _
    · split
      · split
        · exact .keep
        · split
          · exact .keep
          · exact footprint_writeOver hflag it _ expireAt clamped
      · split
        · split
          · exact .keep
          · exact footprint_writeOver hflag it _ expireAt clamped
        · exact .keep

theorem footprint_removePlain (version : ℕ) (expireAt : ℤ)
    (op : Bytes → Option Bytes) :
    Footprint key fits old (removePlain flag key version expireAt op env old).act := by
  unfold removePlain
  rcases old with _ | it
  · dsimp only
    exact .keep
  · dsimp only
    split
    · exact .remove
    · split
      · split
        · exact .keep
        · exact .keep
      · split
        · exact .keep
        · split
          · exact .keep
          · exact footprint_writeOver hflag it _ expireAt _

end

theorem footprint_cIncr (delta : ℤ) (version : ℕ) (expireAt : ℤ) :
    Footprint key fits old (cIncr key delta version expireAt env old).act := by
  have hflag : Uncached flagCounter := uncached_of_mem (by decide)
  have hcreate : ∀ (it : Option LruItem) (stored : ℕ), Footprint key fits it
      (.insert (entryCost key ⟨Counter.encode delta, stored, expireAt, flagCounter⟩)
        (LruItem.new ⟨Counter.encode delta, stored, expireAt, flagCounter⟩)) :=
    fun _ _ => .fresh _ fun _ => hflag.unmixed
  unfold cIncr
  rcases old with _ | it
  · exact hcreate none 1
  · simp only
    split
    · exact hcreate (some it) 1
    · split
      · split
        · exact .keep
        · exact hcreate (some it) (bump it.entry.version)
      · split
        · exact .keep
        · split
          · exact .keep
          · split
            · exact .keep
            · exact footprint_writeOver hflag it _ expireAt inPlace

/-- The operation keeps the number of bytes of a filter. -/
theorem footprint_bloomMutate (m k version : ℕ) (expireAt : ℤ) (f : Bloom.Filter → Bloom.Filter)
    (hf : ∀ filter, (f filter).bits.length = filter.bits.length) :
    Footprint key fits old (bloomMutate key m k version expireAt f env old).act := by
  have hflag : Uncached flagBloom := uncached_of_mem (by decide)
  have hcreate : ∀ (it : Option LruItem) (bits : Bytes), Footprint key fits it
      (.insert (entryCost key ⟨bits, version, expireAt, flagBloom⟩)
        (LruItem.new ⟨bits, version, expireAt, flagBloom⟩)) :=
    fun _ _ => .fresh _ fun _ => hflag.unmixed
  unfold bloomMutate
  rcases old with _ | it
  · simp only
    split
    · exact .remove
    · exact hcreate none _
  · simp only
    split
    · split
      · exact .remove
      · exact hcreate (some it) _
    · split
      · split
        · exact .keep
        · split
          · exact .remove
          · exact hcreate (some it) _
      · by_cases hlacks : (!(entry it).has flagBloom)
        · rw [if_pos hlacks]
          exact .keep
        · rw [if_neg hlacks]
          have hbloom : (entry it).has flagBloom = true := by simpa using hlacks
          rcases hopen : Bloom.open_ m k (entry it).value with _ | filter
          · exact .keep
          · refine .bits it _ true rfl hbloom ?_
            rw [hf, Bloom.bits_of_open hopen]
            rfl

end Plain

section Cached

variable (m : Mode)

section

variable (version : ℕ) (expireAt : ℤ) (stored : Option ℕ → ℕ) (f : m.Value → Option m.Value)
  (hf : fits → ∀ s s', m.Storable s → f s = some s' → m.Storable s') (hnew : m.Storable m.kind.new)
include hf hnew

/-- The operation starts from a storable value and leads to storable values. -/
theorem footprint_mutate :
    ModeFootprint m key fits old (m.kind.mutate key version expireAt stored f env old).act := by
  have hmutated := m.kind.mutate_mutated key version expireAt stored f env old
  generalize m.kind.mutate key version expireAt stored f env old = plan at hmutated ⊢
  cases hmutated with
  | refused => exact .keep
  | failed => exact .remove
  | created _ s base hs => exact .create _ s rfl (Or.inl ⟨rfl, fun h => hf h _ s hnew hs⟩)
  | committed it s s' ht hflag hload hs =>
    exact .commit it s s' _ expireAt rfl hflag hload fun h hstore => hf h s s' hstore hs

theorem footprint_removeVerb :
    ModeFootprint m key fits old (m.kind.removeVerb key version expireAt stored f env old).act := by
  have hmutate : ModeFootprint m key fits old
      (m.kind.mutate key version expireAt stored f env old).act :=
    footprint_mutate m version expireAt stored f hf hnew
  unfold Kind.removeVerb
  split
  · exact .keep
  · split
    · exact .remove
    · split
      · split
        · exact .keep
        · exact .keep
      · split
        · exact .keep
        · exact hmutate

end

theorem footprint_read (miss : ρ) (f : m.Value → ρ) :
    ModeFootprint m key fits old (m.kind.read miss f env old).act := by
  unfold Kind.read
  rcases old with _ | it
  · dsimp only
    exact .keep
  · dsimp only
    split
    · exact .remove
    · by_cases hdead : it.entry.isTombstone = true ∨ (!it.entry.has m.kind.flag) = true
      · rw [if_pos hdead]
        exact .keep
      · rw [if_neg hdead]
        have hflag : it.entry.has m.kind.flag = true := by
          simp only [not_or, Bool.not_eq_true, Bool.not_eq_false'] at hdead
          exact hdead.2
        split
        · exact .keep
        next hcache =>
          rcases hdecode : m.kind.decode it.entry.value with _ | s
          · exact .keep
          · exact .decoded it s rfl hflag hcache hdecode

theorem footprint_cachedInstall (gate : Entry → Option Tally) (blob : Bytes) (version : ℕ)
    (expireAt : ℤ) :
    ModeFootprint m key fits old
      (cachedInstall m.kind gate key blob version expireAt env old).act := by
  cases hdecode : m.kind.decode blob with
  | none =>
    simp only [cachedInstall, hdecode]
    split
    · exact .remove
    · split
      · exact .remove
      · split
        · exact .keep
        · exact .remove
  | some s =>
    have hinstall : ∀ it : Option LruItem, ModeFootprint m key fits it
        (.insert (entryCost key ⟨blob, version, expireAt, m.kind.flag⟩)
          (m.kind.itemOf ⟨blob, version, expireAt, m.kind.flag⟩ s)) :=
      fun _ => .create _ s rfl (Or.inr hdecode)
    simp only [cachedInstall, hdecode]
    rcases old with _ | it
    · dsimp only
      exact hinstall none
    · dsimp only
      split
      · exact hinstall (some it)
      · split
        · exact .keep
        · exact hinstall (some it)

theorem footprint_popVerb (version : ℕ) (expireAt : ℤ)
    (pop : ListX.Items → Option (Bytes × ListX.Items))
    (hpop : ∀ l item l', pop l = some (item, l') → ListX.Storable l → ListX.Storable l') :
    ModeFootprint .list key fits old (popVerb key version expireAt pop env old).act := by
  unfold popVerb
  rcases old with _ | it
  · dsimp only
    exact .keep
  · dsimp only
    split
    · exact .remove
    · split
      · split
        · exact .keep
        · exact .keep
      · by_cases hlacks : (!it.entry.has flagList)
        · rw [if_pos hlacks]
          exact .keep
        · rw [if_neg hlacks]
          have hflag : it.entry.has flagList = true := by simpa using hlacks
          rcases hload : lKind.load it with _ | l
          · dsimp only
            exact .keep
          · dsimp only
            split
            · exact .keep
            next item l' hl =>
              exact ModeFootprint.commit (m := .list) it l l' _ expireAt rfl hflag hload
                fun _ hstore => hpop l item l' hl hstore

end Cached

section Document

variable {doc : Json}

theorem jReplaced_jDoc {it it' : LruItem} (h : jDoc it = some (doc, it')) (doc' : Json)
    (version : ℕ) (expireAt : ℤ) :
    jReplaced it' doc' version expireAt = jReplaced it doc' version expireAt := by
  rw [(jDoc_spec h).1]
  rfl

/-- A document that was created is bounded by what was written. -/
theorem storable_jSetCreate {p : JsonX.Path} {val : Json} (hval : JsonX.Storable val)
    (hle : p.length + depth val ≤ JsonX.maxNestingDepth) (h : jSetCreate p val = .ok doc) :
    JsonX.Storable doc := by
  unfold jSetCreate at h
  split at h
  · rw [Except.ok.injEq] at h
    rw [← h]
    exact hval
  · have hempty : JsonX.Storable (.obj []) :=
      Fits.mono (.obj 0 [] List.Pairwise.nil nofun) (by decide)
    exact JsonX.storable_set hempty hval hle h

theorem footprint_jCommitReplace (it it' : LruItem) (doc : Json) (stored : ℕ)
    (expireAt maxValue : ℤ) (hsame : DocFootprint key fits (some it) (.amend it' false))
    (hreplaced : jReplaced it' doc stored expireAt = jReplaced it doc stored expireAt)
    (hstore : fits → (∀ d it', it.entry.has flagJSON = true → jDoc it = some (d, it') →
      JsonX.Storable d) → JsonX.Storable doc) :
    DocFootprint key fits (some it) (jCommitReplace key it' doc stored expireAt maxValue).act := by
  unfold jCommitReplace
  split
  · exact hsame
  · rw [hreplaced]
    exact .replaced it doc stored expireAt rfl hstore

theorem footprint_jCommitInsert (doc : Json) (stored : ℕ) (expireAt maxValue : ℤ)
    (hstore : fits → JsonX.Storable doc) :
    DocFootprint key fits old (jCommitInsert key doc stored expireAt maxValue).act := by
  unfold jCommitInsert
  split
  · exact .remove
  · exact .written _ doc rfl (Or.inl ⟨rfl, hstore⟩)

/-- A document is created, replaced or left, within the nesting bound. -/
theorem footprint_jSet (path raw : Bytes) (version : ℕ) (expireAt maxValue : ℤ)
    (hfits : fits → ∀ val p, JsonX.decode raw = some val → JsonX.parsePath path = some p →
      p.length + depth val ≤ JsonX.maxNestingDepth) :
    DocFootprint key fits old (jSet key path raw version expireAt maxValue env old).act := by
  unfold jSet
  split
  next val p hval hp =>
    have hcreated : ∀ {doc}, jSetCreate p val = .ok doc → fits → JsonX.Storable doc :=
      fun h hf => storable_jSetCreate (JsonX.storable_of_decode hval) (hfits hf val p hval hp) h
    rcases old with _ | it
    · simp only
      rcases hdoc : jSetCreate p val with _ | doc
      · exact .remove
      · exact footprint_jCommitInsert doc 1 expireAt maxValue (hcreated hdoc)
    · simp only
      split
      · rcases hdoc : jSetCreate p val with _ | doc
        · exact .remove
        · exact footprint_jCommitInsert doc 1 expireAt maxValue (hcreated hdoc)
      · split
        · split
          · exact .keep
          · rcases hdoc : jSetCreate p val with _ | doc
            · exact .keep
            · exact footprint_jCommitReplace it it doc _ expireAt maxValue (.same it rfl) rfl
                fun hf _ => hcreated hdoc hf
        · by_cases hlacks : (!it.entry.has flagJSON)
          · rw [if_pos hlacks]
            exact .keep
          · rw [if_neg hlacks]
            have hflag : it.entry.has flagJSON = true := by simpa using hlacks
            rcases hdoc : jDoc it with _ | ⟨doc, it'⟩
            · dsimp only
              exact .keep
            · dsimp only
              have hsame : DocFootprint key fits (some it) (.amend it' false) :=
                .document it it' doc rfl hflag hdoc
              split
              · exact hsame
              next doc' hset =>
                refine footprint_jCommitReplace it it' doc' _ expireAt maxValue hsame
                  (jReplaced_jDoc hdoc doc' _ expireAt) fun hf hold => ?_
                exact JsonX.storable_set (hold doc it' hflag hdoc) (JsonX.storable_of_decode hval)
                  (hfits hf val p hval hp) hset
  · exact .keep

theorem footprint_jDel (path : Bytes) (version : ℕ) (expireAt : ℤ) :
    DocFootprint key fits old (jDel key path version expireAt env old).act := by
  unfold jDel
  rcases old with _ | it
  · dsimp only
    exact .keep
  · dsimp only
    split
    · exact .remove
    · split
      · split
        · exact .keep
        · exact .keep
      · by_cases hlacks : (!it.entry.has flagJSON)
        · rw [if_pos hlacks]
          exact .keep
        · rw [if_neg hlacks]
          have hflag : it.entry.has flagJSON = true := by simpa using hlacks
          split
          · exact .keep
          · rcases hdoc : jDoc it with _ | ⟨doc, it'⟩
            · dsimp only
              exact .keep
            · dsimp only
              split
              · exact .document it it' doc rfl hflag hdoc
              next doc' hdel =>
                simp only [jReplaced_jDoc hdoc]
                exact .replaced it doc' _ expireAt rfl
                  fun _ hold => JsonX.storable_del (hold doc it' hflag hdoc) hdel

theorem footprint_jGet (path : Bytes) : DocFootprint key fits old (jGet path env old).act := by
  unfold jGet
  rcases old with _ | it
  · dsimp only
    exact .keep
  · dsimp only
    split
    · exact .remove
    · by_cases hdead : it.entry.isTombstone = true ∨ (!it.entry.has flagJSON) = true
      · rw [if_pos hdead]
        exact .keep
      · rw [if_neg hdead]
        have hflag : it.entry.has flagJSON = true := by
          simp only [not_or, Bool.not_eq_true, Bool.not_eq_false'] at hdead
          exact hdead.2
        split
        · exact .keep
        · split
          · exact .keep
          · rcases hdoc : jDoc it with _ | ⟨doc, it'⟩
            · exact .keep
            · exact .document it it' doc rfl hflag hdoc

theorem footprint_jInstall (blob : Bytes) (version : ℕ) (expireAt : ℤ) :
    DocFootprint key fits old (jInstall key blob version expireAt env old).act := by
  unfold jInstall
  rcases hdecode : JsonX.decode blob with _ | doc
  · exact .keep
  · have hinstall : ∀ it : Option LruItem, DocFootprint key fits it
        (.insert (entryCost key ⟨blob, version, expireAt, flagJSON⟩)
          (jItem ⟨blob, version, expireAt, flagJSON⟩ doc)) :=
      fun _ => .written _ doc rfl (Or.inr hdecode)
    rcases old with _ | it
    · exact hinstall none
    · simp only
      split
      · exact hinstall (some it)
      · split
        · exact .keep
        · exact hinstall (some it)

end Document

end Store

def PlainCall.Bare : PlainCall → Prop
  | acceptNegative e => ∀ m : Mode, e.has m.kind.flag = false
  | _ => True

def PlainCall.Fits : PlainCall → Prop
  | set e => Unmixed e.flags
  | acceptIfNewer e => Unmixed e.flags
  | acceptNegative e => Uncached e.flags
  | _ => True

def CachedCall.Fits : CachedCall → Prop
  | setAdd item _ _ => item.length < 2 ^ 64
  | zAdd member _ _ _ => member.length < 2 ^ 64
  | geoAdd member _ _ _ => member.length < 2 ^ 64
  | lPush item _ _ => item.length < 2 ^ 64
  | rPush item _ _ => item.length < 2 ^ 64
  | hSet field value _ _ => field.length < 2 ^ 64 ∧ value.length < 2 ^ 64
  | jSet path raw _ _ _ => ∀ val p, JsonX.decode raw = some val → JsonX.parsePath path = some p →
      p.length + depth val ≤ JsonX.maxNestingDepth
  | _ => True

section Table

open Store

variable {key : Bytes} {env : Env} {old : Option LruItem}

/-- How the verbs on the bytes of an entry are put together, over items of every kind. -/
inductive PlainForm (key : Bytes) : {ρ : Type} → ((α : Type) → [Stored α] → Verb α ρ) → Prop
  | skip {ρ : Type} (r : ρ) : PlainForm key fun _ _ _ _ => .skip r
  | readLive {ρ : Type} (flag : ℕ) (hflag : flag ∈ uncachedFlags) (miss : ρ) (f : Entry → ρ) :
    PlainForm key fun _ _ => Store.readLive flag miss f
  | install {flag : ℕ} {gate : Entry → Option Tally} (hflag : flag ∈ uncachedFlags)
    (hgate : ∀ e e', e.version = e'.version → e.flags = e'.flags → gate e = gate e')
    (blob : Bytes) (version : ℕ) (expireAt : ℤ) :
    PlainForm key fun _ _ => plainInstall gate flag key blob version expireAt
  | cIncr (delta : ℤ) (version : ℕ) (expireAt : ℤ) :
    PlainForm key fun _ _ => Store.cIncr key delta version expireAt
  | bloom {f : Bloom.Filter → Bloom.Filter} (m k version : ℕ) (expireAt : ℤ)
    (hf : ∀ filter, (f filter).bits.length = filter.bits.length) :
    PlainForm key fun _ _ => bloomMutate key m k version expireAt f
  | mutate {ρ : Type} {flag : ℕ} (hflag : flag ∈ uncachedFlags) (version : ℕ) (expireAt : ℤ)
    (refused : ρ) (op : Option Bytes → Outcome ρ) :
    PlainForm key fun _ _ => mutatePlain flag key version expireAt refused op
  | remove {flag : ℕ} (hflag : flag ∈ uncachedFlags) (version : ℕ) (expireAt : ℤ)
    (op : Bytes → Option Bytes) :
    PlainForm key fun _ _ => removePlain flag key version expireAt op
  | map {ρ τ : Type} {v : (α : Type) → [Stored α] → Verb α ρ} (f : ρ → τ) (h : PlainForm key v) :
    PlainForm key fun α _ => (v α).map f
  | ite {ρ : Type} {v w : (α : Type) → [Stored α] → Verb α ρ} (c : Prop) [Decidable c]
    (hv : PlainForm key v) (hw : PlainForm key w) :
    PlainForm key fun α _ env old => if c then v α env old else w α env old

theorem PlainForm.checked {flag : ℕ} (hflag : flag ∈ uncachedFlags) (ok : Bool) (blob : Bytes)
    (version : ℕ) (expireAt : ℤ) :
    PlainForm key fun _ _ => checkedInstall ok flag key blob version expireAt := by
  refine .ite _ (.install hflag (fun e e' hversion hflags => ?_) blob version expireAt)
    (.skip false)
  exact installGate_congr hversion hflags flag version

theorem PlainForm.liveVS {ρ : Type} (f : VecSet.VSet → Option ρ) :
    PlainForm key fun _ _ => Store.liveVS f := .readLive flagVectorSet (by decide) none _

theorem PlainForm.liveStream {ρ : Type} (f : Stream.Log → ρ) :
    PlainForm key fun _ _ => Store.liveStream f := .readLive flagStream (by decide) none _

def PlainCall.keyValue : PlainCall → Bool
  | get | peek | peekVersion | set _ | acceptIfNewer _ | acceptNegative _ | delete
  | deleteIfVersion _ => true
  | _ => false

/-- Every plain call is put together from the same few verbs. -/
theorem PlainCall.form (c : PlainCall) (key : Bytes) (hc : c.keyValue = false) :
    PlainForm key fun α _ => (c.verb key : Verb α Ret) := by
  cases c with
  | get | peek | peekVersion | set | acceptIfNewer | acceptNegative | delete | deleteIfVersion =>
    exact absurd hc (by simp [keyValue])
  | cIncr delta v x => exact .map _ (.cIncr delta v x)
  | cGet | hasCounter | bloomTest | bGet | bCount | bPos | hasBitmap | hllCount | hasHLL | topkList
  | hasTopK | cmsQuery | hasCMS | hasVectorSet | hasStream =>
    exact .map _ (.readLive _ (by decide) _ _)
  | vSim | vCard | vDim | vEmb => exact .map _ (.liveVS _)
  | xLen => exact .map _ (.liveStream _)
  | cInstall blob v x | bInstall blob v x | hllInstall blob v x | topkInstall blob v x
  | cmsInstall blob v x | vsInstall blob v x => exact .map _ (.checked (by decide) _ blob v x)
  | bloomAdd item m k v x => exact .map _ (.bloom m k v x fun f => f.add_length item)
  | bloomMerge bits m k v x =>
    refine .map _ ?_
    unfold Store.bloomMerge
    cases Bloom.open_ m k bits with
    | none => exact .skip false
    | some remote => exact .bloom m k v x fun f => f.merge_length _
  | bSet offset bit v x maxValue =>
    refine .map _ ?_
    unfold Store.bSet
    cases BitmapX.encodedLen offset with
    | none => exact .skip _
    | some need => exact .ite _ (.skip _) (.mutate (by decide) v x _ _)
  | hllAdd item v x | vAdd member vec v x =>
    exact .map _ (.ite _ (.skip _) (.mutate (by decide) v x _ _))
  | topkAdd item v x | cmsIncr item n v x =>
    exact .map _ (.ite _ (.skip _) (.ite _ (.skip _) (.mutate (by decide) v x _ _)))
  | vRem member v x => exact .map _ (.remove (by decide) v x _)
  | xAdd payload v x => exact .map _ (.mutate (by decide) v x _ _)
  | xDel id v x =>
    refine .map _ ?_
    unfold Store.xDel
    cases Stream.parseID id with
    | none => exact .skip false
    | some p => exact .remove (by decide) v x _
  | xTrim maxLen v x => exact .map _ (.ite _ (.skip _) (.remove (by decide) v x _))
  | xRange start stop count rev =>
    refine .map _ ?_
    unfold Store.xRange
    cases Stream.parseBound start true with
    | none => exact .skip _
    | some sb =>
      cases Stream.parseBound stop false with
      | none => exact .skip _
      | some eb => exact .map _ (.liveStream _)
  | sxInstall blob v x =>
    refine .map _ (.ite _ (.install (by decide) (fun e e' hversion _ => ?_) blob v x) (.skip _))
    rw [hversion]

theorem PlainForm.footprint {ρ : Type} {v : (α : Type) → [Stored α] → Verb α ρ} {fits : Prop}
    (h : PlainForm key v) : Footprint key fits old (v LruItem env old).act := by
  induction h with
  | skip => exact .keep
  | readLive flag _ miss f => exact footprint_readLive flag miss f
  | install hflag _ blob v x => exact footprint_plainInstall (uncached_of_mem hflag) _ blob v x
  | cIncr delta v x => exact footprint_cIncr delta v x
  | bloom m k v x hf => exact footprint_bloomMutate m k v x _ hf
  | mutate hflag v x refused op =>
    exact footprint_mutatePlain (uncached_of_mem hflag) v x refused op
  | remove hflag v x op => exact footprint_removePlain (uncached_of_mem hflag) v x op
  | map f _ ih => exact ih
  | ite c _ _ ihv ihw =>
    split
    · exact ihv
    · exact ihw

theorem PlainCall.footprint (c : PlainCall) (hbare : c.Bare) :
    Footprint key c.Fits old (c.verb key env old).act := by
  by_cases hc : c.keyValue = false
  · exact (c.form key hc).footprint
  · cases c with
    | get => exact footprint_get
    | peek => exact footprint_peek
    | peekVersion => exact footprint_peekVersion
    | set e => exact footprint_set e id
    | acceptIfNewer e => exact footprint_acceptIfNewer e id
    | acceptNegative e => exact footprint_acceptNegative e hbare id
    | delete => exact footprint_delete
    | deleteIfVersion v => exact footprint_deleteIfVersion v
    | _ => exact absurd rfl hc

section Storable

variable {item member field : Bytes} {s s' : SetX.Members} {z z' : ZSet.Scores} {g g' : Geo.Index}
  {l l' : ListX.Items} {f f' : HashX.Fields}

theorem SetX.storable_add (hs : SetX.record.Storable s) (hitem : item.length < 2 ^ 64)
    (h : some (SetX.add s item) = some s') : SetX.record.Storable s' := by
  rw [← Option.some.inj h]
  exact SetX.record.storable_insert hs hitem rfl

theorem SetX.storable_remove (hs : SetX.record.Storable s)
    (h : some (SetX.remove s item) = some s') :
    SetX.record.Storable s' := by
  rw [← Option.some.inj h]
  exact SetX.record.storable_erase hs item

theorem ZSet.storable_add {score : UInt64} (hz : ZSet.record.Storable z)
    (hmember : member.length < 2 ^ 64) (h : ZSet.add z member score = some z') :
    ZSet.record.Storable z' := by
  unfold ZSet.add at h
  by_cases hnan : FloatBits.isNaN score
  · simp [hnan] at h
  · rw [if_neg hnan] at h
    rw [← Option.some.inj h]
    exact ZSet.record.storable_insert hz hmember (by simpa [ZSet.record] using hnan)

theorem ZSet.storable_rem (hz : ZSet.record.Storable z) (h : some (ZSet.rem z member) = some z') :
    ZSet.record.Storable z' := by
  rw [← Option.some.inj h]
  exact ZSet.record.storable_erase hz member

theorem Geo.storable_add {p : Geo.Point} (hg : Geo.record.Storable g)
    (hmember : member.length < 2 ^ 64) (h : Geo.add g member p = some g') :
    Geo.record.Storable g' := by
  unfold Geo.add at h
  by_cases hvalid : validCoord p
  · rw [if_pos hvalid] at h
    rw [← Option.some.inj h]
    exact Geo.record.storable_insert hg hmember hvalid
  · simp [hvalid] at h

theorem Geo.storable_rem (hg : Geo.record.Storable g) (h : some (Geo.rem g member) = some g') :
    Geo.record.Storable g' := by
  rw [← Option.some.inj h]
  exact Geo.record.storable_erase hg member

theorem ListX.storable_new : ListX.Storable ListX.new := fun _ h => absurd h List.not_mem_nil

theorem ListX.storable_lPush (hl : ListX.Storable l) (hitem : item.length < 2 ^ 64)
    (h : some (ListX.lPush l item) = some l') : ListX.Storable l' := by
  rw [← Option.some.inj h]
  exact List.forall_mem_cons.mpr ⟨hitem, hl⟩

theorem ListX.storable_rPush (hl : ListX.Storable l) (hitem : item.length < 2 ^ 64)
    (h : some (ListX.rPush l item) = some l') : ListX.Storable l' := by
  rw [← Option.some.inj h]
  exact List.forall_mem_append.mpr ⟨hl, List.forall_mem_singleton.mpr hitem⟩

theorem ListX.storable_lPop (l : ListX.Items) (item : Bytes) (l' : ListX.Items)
    (h : ListX.lPop l = some (item, l')) (hl : ListX.Storable l) : ListX.Storable l' := by
  cases l with
  | nil => simp [ListX.lPop] at h
  | cons a rest =>
    simp only [ListX.lPop, Option.some.injEq, Prod.mk.injEq] at h
    rw [← h.2]
    exact fun i hi => hl i (List.mem_cons_of_mem a hi)

theorem ListX.storable_rPop (l : ListX.Items) (item : Bytes) (l' : ListX.Items)
    (h : ListX.rPop l = some (item, l')) (hl : ListX.Storable l) : ListX.Storable l' := by
  unfold ListX.rPop at h
  split at h
  · simp at h
  · simp only [Option.some.injEq, Prod.mk.injEq] at h
    rw [← h.2]
    exact fun i hi => hl i (List.mem_of_mem_dropLast hi)

theorem HashX.storable_set {value : Bytes} (hf : HashX.record.Storable f)
    (hfits : field.length < 2 ^ 64 ∧ value.length < 2 ^ 64)
    (h : some (HashX.set f field value) = some f') : HashX.record.Storable f' := by
  rw [← Option.some.inj h]
  exact HashX.record.storable_insert hf hfits rfl

theorem HashX.storable_del (hf : HashX.record.Storable f) (h : some (HashX.del f field) = some f') :
    HashX.record.Storable f' := by
  rw [← Option.some.inj h]
  exact HashX.record.storable_erase hf field

end Storable

/-- Every call on a cached mode keeps to the list. -/
theorem CachedCall.cachedFootprint (c : CachedCall) :
    CachedFootprint key c.Fits old (c.verb key env old).act := by
  cases c with
  | setAdd item v x =>
    exact .mode .set (footprint_mutate .set v x _ _
      (fun hfits s s' hs heq => SetX.storable_add hs hfits heq) SetX.record.storable_empty)
  | setRemove item v x =>
    exact .mode .set (footprint_removeVerb .set v x _ _
      (fun _ s s' hs heq => SetX.storable_remove hs heq) SetX.record.storable_empty)
  | setInstall blob v x => exact .mode .set (footprint_cachedInstall .set _ blob v x)
  | zAdd member score v x =>
    exact .mode .zset (footprint_mutate .zset v x _ _
      (fun hfits s s' hs heq => ZSet.storable_add hs hfits heq) ZSet.record.storable_empty)
  | zRem member v x =>
    exact .mode .zset (footprint_removeVerb .zset v x _ _
      (fun _ s s' hs heq => ZSet.storable_rem hs heq) ZSet.record.storable_empty)
  | zInstall blob v x => exact .mode .zset (footprint_cachedInstall .zset _ blob v x)
  | geoAdd member p v x =>
    exact .mode .geo (footprint_mutate .geo v x _ _
      (fun hfits s s' hs heq => Geo.storable_add hs hfits heq) Geo.record.storable_empty)
  | geoRem member v x =>
    exact .mode .geo (footprint_removeVerb .geo v x _ _
      (fun _ s s' hs heq => Geo.storable_rem hs heq) Geo.record.storable_empty)
  | geoInstall blob v x => exact .mode .geo (footprint_cachedInstall .geo _ blob v x)
  | lPush item v x =>
    exact .mode .list (footprint_mutate .list v x _ _
      (fun hfits s s' hs heq => ListX.storable_lPush hs hfits heq) ListX.storable_new)
  | rPush item v x =>
    exact .mode .list (footprint_mutate .list v x _ _
      (fun hfits s s' hs heq => ListX.storable_rPush hs hfits heq) ListX.storable_new)
  | lPop v x => exact .mode .list (footprint_popVerb v x _ ListX.storable_lPop)
  | rPop v x => exact .mode .list (footprint_popVerb v x _ ListX.storable_rPop)
  | lInstall blob v x => exact .mode .list (footprint_cachedInstall .list _ blob v x)
  | hSet field value v x =>
    exact .mode .hash (footprint_mutate .hash v x _ _
      (fun hfits s s' hs heq => HashX.storable_set hs hfits heq) HashX.record.storable_empty)
  | hDel field v x =>
    exact .mode .hash (footprint_removeVerb .hash v x _ _
      (fun _ s s' hs heq => HashX.storable_del hs heq) HashX.record.storable_empty)
  | hInstall blob v x => exact .mode .hash (footprint_cachedInstall .hash _ blob v x)
  | jSet path raw v x maxValue => exact .doc (footprint_jSet path raw v x maxValue id)
  | jDel path v x => exact .doc (footprint_jDel path v x)
  | jGet path => exact .doc (footprint_jGet path)
  | hasJSON => exact .doc footprint_hasJSON
  | jInstall blob v x => exact .doc (footprint_jInstall blob v x)
  | setContains | hasSet | setCard | setMembers => exact .mode .set (footprint_read .set _ _).map
  | zScore | zCard | hasZSet | zRange | zRangeByScore =>
    exact .mode .zset (footprint_read .zset _ _).map
  | geoPos | geoCard | hasGeo | geoDist | geoRadius =>
    exact .mode .geo (footprint_read .geo _ _).map
  | lLen | hasList | lIndex | lRange => exact .mode .list (footprint_read .list _ _).map
  | hGet | hExists | hLen | hasHash | hGetAll => exact .mode .hash (footprint_read .hash _ _).map

theorem CachedCall.footprint (c : CachedCall) :
    Footprint key c.Fits old (c.verb key env old).act := by
  cases c.cachedFootprint with
  | mode m h => exact .mode m _ h
  | doc h => exact .doc _ h

def Call.Bare : Call → Prop
  | plain c => c.Bare
  | cached _ => True

def Call.Fits : Call → Prop
  | plain c => c.Fits
  | cached c => c.Fits

theorem Call.footprint (c : Call) (hbare : c.Bare) :
    Footprint key c.Fits old (c.verb key env old).act := by
  cases c with
  | plain c => exact c.footprint hbare
  | cached c => exact c.footprint

end Table

end Supercache
