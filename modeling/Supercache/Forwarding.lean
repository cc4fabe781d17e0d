import Supercache.ItemReplication

/-!
Item writes issued on a node that does not own the name. The node sends the item to the owner as
an entry of version one and returns the transport's error only. The write is there afterwards
exactly when the owner's store takes an add of version one, which it does not over a live
tombstone.
-/
namespace Supercache.Forwarding

open Wire Lru ByteMap ItemReplication

structure BloomMK where
  m : ℕ
  k : ℕ
  bits_le : 64 ≤ m
  hashes_pos : 1 ≤ k

inductive Write where
  | setAdd (item : Bytes)
  | zAdd (member : Bytes) (score : UInt64)
  | geoAdd (member : Bytes) (p : Geo.Point)
  | hSet (field value : Bytes)
  | bloomAdd (item : Bytes)

namespace Write

/-- What the calls check before they forward; lengths are those of an `int`. -/
def Admitted : Write → Prop
  | setAdd item | bloomAdd item => item ≠ []
  | zAdd member score =>
    member ≠ [] ∧ member.length < 2 ^ 64 ∧ FloatBits.isNaN score = false
  | geoAdd member p => member ≠ [] ∧ member.length < 2 ^ 64 ∧ Geo.validCoord p = true
  | hSet field value => field ≠ [] ∧ field.length < 2 ^ 64 ∧ value.length < 2 ^ 64

def ent : Write → Entry
  | setAdd item => ⟨item, 1, 0, flagSetAdd⟩
  | zAdd member score => ⟨ZSet.encodeAdd member score, 1, 0, flagZSetAdd⟩
  | geoAdd member p => ⟨Geo.encodeAdd member p, 1, 0, flagGeoAdd⟩
  | hSet field value => ⟨HashX.encodeSet field value, 1, 0, flagHashSet⟩
  | bloomAdd item => ⟨item, 1, 0, flagBloomAdd⟩

end Write

def onStore {ρ : Type} (now : ℤ) (key : Bytes) (v : Verb LruItem ρ) (ks : KsRuntime) :
    KsRuntime × ρ :=
  let (store, r) := ks.store.perform now key v
  ({ ks with store := store }, r)

def applyPut (mk : BloomMK) (key : Bytes) (ttl now : ℤ) (walk : Walk) (ks : KsRuntime)
    (ent : Entry) : KsRuntime × Bool :=
  let ks := ks.observeVersion now walk key ent.version
  let expire := if ent.expireAt = 0 then expireAt now ttl else ent.expireAt
  if ent.has flagBloomAdd then
    onStore now key (Store.bloomAdd key ent.value mk.m mk.k ent.version expire) ks
  else if ent.has flagSetAdd then
    onStore now key (Store.setAdd key ent.value ent.version expire) ks
  else if ent.has flagZSetAdd then
    match ZSet.decodeAdd ent.value with
    | none => (ks, false)
    | some (member, score) => onStore now key (Store.zAdd key member score ent.version expire) ks
  else if ent.has flagGeoAdd then
    match Geo.decodeAdd ent.value with
    | none => (ks, false)
    | some (member, p) => onStore now key (Store.geoAdd key member p ent.version expire) ks
  else if ent.has flagHashSet then
    match HashX.decodeSet ent.value with
    | none => (ks, false)
    | some (field, value) => onStore now key (Store.hSet key field value ent.version expire) ks
  else (ks, false)

/-- What the forwarding node returns: an error of the transport is passed on, and whether
the entry was applied is dropped. -/
def returned {E : Type} : Except E Bool → Except E Unit
  | .error e => .error e
  | .ok _ => .ok ()

def mutViaOwner (E : Type) (mk : BloomMK) (key : Bytes) (ttl now : ℤ) (walk : Walk)
    (owner : KsRuntime) (w : Write) : KsRuntime × Except E Unit :=
  let (ks, applied) := applyPut mk key ttl now walk owner w.ent
  (ks, returned (.ok applied))

namespace Write

def contained (mk : BloomMK) (m : Mem) (now : ℤ) (key : Bytes) : Write → Prop
  | setAdd item => (m.perform now key (Store.setContains item)).2 = true
  | zAdd member score => (m.perform now key (Store.zScore member)).2 = some score
  | geoAdd member p => (m.perform now key (Store.geoPos member)).2 = some p
  | hSet field value => (m.perform now key (Store.hGet field)).2 = some value
  | bloomAdd item => (m.perform now key (Store.bloomTest item mk.m mk.k)).2 = true

instance (mk : BloomMK) (m : Mem) (now : ℤ) (key : Bytes) (w : Write) :
    Decidable (w.contained mk m now key) := by
  cases w <;> unfold contained <;> infer_instance

end Write

/-- The store takes an add of a version: nothing unexpired is there, or an older tombstone,
or a value of the mode that loads. -/
def takes (flag : ℕ) (loads : LruItem → Bool) (now : ℤ) (version : ℕ) : Option LruItem → Bool
  | none => true
  | some it =>
    if it.entry.expired now then true
    else if it.entry.isTombstone then it.entry.version < version
    else it.entry.has flag && loads it

def Write.taken (mk : BloomMK) (now : ℤ) (old : Option LruItem) : Write → Bool
  | .setAdd _ => takes flagSet (fun it => (setKind.load it).isSome) now 1 old
  | .zAdd _ _ => takes flagZSet (fun it => (zKind.load it).isSome) now 1 old
  | .geoAdd _ _ => takes flagGeo (fun it => (gKind.load it).isSome) now 1 old
  | .hSet _ _ => takes flagHash (fun it => (hKind.load it).isSome) now 1 old
  | .bloomAdd _ =>
    takes flagBloom (fun it => (Bloom.open_ mk.m mk.k it.entry.value).isSome) now 1 old

theorem lasts_expireAt (now ttl : ℤ) : Entry.Lasts (now + 1) (expireAt now ttl) := by
  unfold Entry.Lasts expireAt
  split <;> omega

section Takes

variable {flag : ℕ} {loads : LruItem → Bool} {now : ℤ} {version : ℕ} {old : Option LruItem}

/-- The add starts afresh, or works on the live value. -/
theorem takes_cases (h : takes flag loads now version old = true) :
    (∀ it, old = some it → it.entry.expired now = true ∨
        it.entry.expired now = false ∧ it.entry.isTombstone = true ∧ it.entry.version < version) ∨
      ∃ it, old = some it ∧ it.entry.expired now = false ∧ it.entry.isTombstone = false ∧
        it.entry.has flag = true ∧ loads it = true := by
  cases old with
  | none => exact Or.inl fun _ h => absurd h (by simp)
  | some it =>
    simp only [takes] at h
    cases hx : it.entry.expired now with
    | true => exact Or.inl fun _ heq => Or.inl (Option.some.inj heq ▸ hx)
    | false =>
      cases ht : it.entry.isTombstone with
      | true =>
        simp only [hx, ht, Bool.false_eq_true, if_false, if_true, decide_eq_true_eq] at h
        exact Or.inl fun _ heq => Or.inr (Option.some.inj heq ▸ ⟨hx, ht, h⟩)
      | false =>
        simp only [hx, ht, Bool.false_eq_true, if_false, Bool.and_eq_true] at h
        exact Or.inr ⟨it, rfl, hx, ht, h.1, h.2⟩

/-- The add meets a tombstone that is not older, or a value it cannot work on. -/
theorem not_takes_cases (h : takes flag loads now version old = false) :
    ∃ it, old = some it ∧ it.entry.expired now = false ∧
      (it.entry.isTombstone = true ∧ version ≤ it.entry.version ∨ it.entry.isTombstone = false ∧
          (it.entry.has flag = false ∨ it.entry.has flag = true ∧ loads it = false)) := by
  cases old with
  | none => simp [takes] at h
  | some it =>
    refine ⟨it, rfl, ?_⟩
    simp only [takes] at h
    cases hx : it.entry.expired now with
    | true => simp [hx] at h
    | false =>
      refine ⟨rfl, ?_⟩
      cases ht : it.entry.isTombstone with
      | true => exact Or.inl ⟨rfl, by simpa [hx, ht] using h⟩
      | false =>
        simp only [hx, ht, Bool.false_eq_true, if_false, Bool.and_eq_false_iff] at h
        cases hhas : it.entry.has flag with
        | false => exact Or.inr ⟨rfl, Or.inl rfl⟩
        | true => exact Or.inr ⟨rfl, Or.inr ⟨rfl, h.resolve_left (by simp [hhas])⟩⟩

end Takes

section Items

variable {V : Type} (mode : ItemMode V) (env : Env) {version : ℕ} {expire : ℤ}
  {old : Option LruItem}

/-- The value an add stores has the item. -/
theorem mutate_of_takes (key item : Bytes) (v : V)
    (h : takes mode.kind.flag (fun it => (mode.kind.load it).isSome) env.now version old = true)
    (hexp : Entry.Lasts (env.now + 1) expire) : ∃ (s : Map V) (it : LruItem),
      (mode.kind.mutate key version expire (fun _ => version) (fun s => some (s.insert item v)) env
        old).act.result old = some it ∧ Carries mode (env.now + 1) (s.insert item v) (some it) := by
  rcases takes_cases h with hfresh | ⟨it, rfl, hx, ht, hhas, hload⟩
  · let e : Entry :=
      ⟨mode.kind.encode (mode.kind.new.insert item v), version, expire, mode.kind.flag⟩
    have hcreated : Carries mode (env.now + 1) (mode.kind.new.insert item v)
        (some (mode.kind.itemOf e (mode.kind.new.insert item v))) := carries_create rfl hexp
    refine ⟨mode.kind.new, _, ?_, hcreated⟩
    cases old with
    | none => rfl
    | some it =>
      rcases hfresh it rfl with hx | ⟨hx, ht, hold⟩
      · simp only [Kind.mutate, hx, if_true]
        rfl
      · simp only [Kind.mutate, hx, ht, Nat.not_le.mpr hold, Bool.false_eq_true, if_false, if_true]
        rfl
  · obtain ⟨s, hs⟩ := Option.isSome_iff_exists.mp hload
    refine ⟨s, _, ?_, carries_commit mode (s.insert item v) version
      (Entry.lasts_of_not_expired hx) hexp⟩
    rw [mode.kind.mutate_of_live key version expire _ _ hx ht hhas hs]
    rfl

theorem mutate_of_not_takes (key : Bytes) (expire : ℤ) (f : Map V → Option (Map V))
    (h : takes mode.kind.flag (fun it => (mode.kind.load it).isSome) env.now version old = false) :
    ∃ tally, mode.kind.mutate key version expire (fun _ => version) f env old =
      ⟨.keep, tally, fun _ => false⟩ := by
  obtain ⟨it, rfl, hx, hrest⟩ := not_takes_cases h
  rcases hrest with ⟨ht, hold⟩ | ⟨ht, hhas | ⟨hhas, hload⟩⟩
  · refine ⟨.stale, ?_⟩
    simp only [Kind.mutate, hx, ht, hold, Bool.false_eq_true, if_false, if_true]
    rfl
  · refine ⟨.quiet, ?_⟩
    simp only [Kind.mutate, hx, ht, hhas, Bool.false_eq_true, if_false]
    rfl
  · refine ⟨.quiet, ?_⟩
    rw [Option.isSome_eq_false_iff, Option.isNone_iff_eq_none] at hload
    simp only [Kind.mutate, hx, ht, hhas, hload, Bool.false_eq_true, if_false, if_true]
    rfl

/-- Where an add is refused there is nothing of the mode to see. -/
theorem read_of_not_takes {ρ : Type} (f : Map V → Option ρ) (still : Bool)
    (h : takes mode.kind.flag (fun it => (mode.kind.load it).isSome) env.now version old = false) :
    (mode.kind.read none f env old).ret still = none := by
  obtain ⟨it, rfl, hx, hrest⟩ := not_takes_cases h
  rcases hrest with ⟨ht, -⟩ | ⟨ht, hhas | ⟨hhas, hload⟩⟩
  · simp [Kind.read, hx, ht, Plan.skip]
  · simp [Kind.read, hx, hhas, Plan.skip]
  · simp only [Option.isSome_eq_false_iff, Option.isNone_iff_eq_none, Kind.load] at hload
    cases hcache : (mode.kind.slot it).cache with
    | some s => simp [hcache] at hload
    | none =>
      rw [hcache] at hload
      simp [Kind.read, hx, ht, hhas, hcache, hload, Plan.skip]

/-- An item is there with its value after an add exactly when the store takes the add. -/
theorem seen_add_iff {m : Mem} {now : ℤ} {v : V} (hv : mode.valid v = true) (key item : Bytes)
    (hexp : Entry.Lasts (now + 1) expire) :
    seen mode (m.perform now key (mode.add key item v version expire)).1 now key item = some v ↔
      takes mode.kind.flag (fun it => (mode.kind.load it).isSome) now version
        (m.lookup key) = true := by
  have hadd := mode.add_eq key item v version expire
  simp only [hv, if_true] at hadd
  rw [hadd]
  cases htakes : takes mode.kind.flag (fun it => (mode.kind.load it).isSome) now version
      (m.lookup key) with
  | true =>
    obtain ⟨s, it, hresult, hcar⟩ := mutate_of_takes mode (m.env now) key item v htakes hexp
    have hkept := carries_stored (Int.lt_succ now) hresult hcar
    rw [seen_of_carries (hkept ▸ hcar) (Int.lt_succ now)]
    simp
  | false =>
    obtain ⟨tally, hplan⟩ := mutate_of_not_takes mode (m.env now) key expire
      (fun s => some (s.insert item v)) htakes
    unfold seen
    rw [Memory.perform_ret, mode.look_eq, Memory.lookup_perform_of_keep _ (by rw [hplan]),
      read_of_not_takes mode (Memory.env _ now) _ _ htakes]
    simp

end Items

section Bloom

variable (env : Env) {version : ℕ} {expire : ℤ} {old : Option LruItem} {f : Bloom.Filter}

theorem open_zeros (mk : BloomMK) : Bloom.open_ mk.m mk.k (List.replicate ((mk.m + 7) / 8) 0) =
      some ⟨List.replicate ((mk.m + 7) / 8) 0, mk.m, mk.k⟩ := by
  have hm := mk.bits_le
  have hk := mk.hashes_pos
  have hshape : ¬ (mk.m < 8 ∨ mk.k < 1) := by omega
  simp only [Bloom.open_, if_neg hshape, List.length_replicate, ne_eq, not_true_eq_false, if_false]

/-- The filter an add leaves has the item, and stays. -/
theorem bloomAdd_of_takes (mk : BloomMK) (key item : Bytes)
    (h : takes flagBloom (fun it => (Bloom.open_ mk.m mk.k it.entry.value).isSome) env.now version
      old = true) (hexp : Entry.Lasts (env.now + 1) expire) : ∃ (it : LruItem) (f : Bloom.Filter),
      (Store.bloomAdd key item mk.m mk.k version expire env old).act.result old = some it ∧
      it.entry.expired env.now = false ∧ it.entry.isTombstone = false ∧
      it.entry.has flagBloom = true ∧ Bloom.open_ mk.m mk.k it.entry.value = some f ∧
      f.test item = true := by
  rcases takes_cases h with hfresh | ⟨it, rfl, hx, ht, hhas, hopen⟩
  · obtain ⟨f, hf, htest⟩ := Bloom.open_add (open_zeros mk) item
    let e : Entry := ⟨(Bloom.Filter.add ⟨List.replicate ((mk.m + 7) / 8) 0, mk.m, mk.k⟩ item).bits,
      version, expire, flagBloom⟩
    have hflags : e.flags = flagBloom := rfl
    refine ⟨fresh e, f, ?_, Entry.expired_of_lasts hexp (Int.lt_succ env.now),
      Entry.has_of_flags hflags _, Entry.has_of_flags hflags _, hf, htest⟩
    cases old with
    | none =>
      simp only [Store.bloomAdd, Store.bloomMutate, open_zeros mk]
      rfl
    | some it =>
      rcases hfresh it rfl with hx | ⟨hx, ht, hold⟩
      · simp only [Store.bloomAdd, Store.bloomMutate, open_zeros mk, entry, hx, if_true]
        rfl
      · simp only [Store.bloomAdd, Store.bloomMutate, open_zeros mk, entry, hx, ht,
          Nat.not_le.mpr hold, Bool.false_eq_true, if_false, if_true]
        rfl
  · obtain ⟨g, hg⟩ := Option.isSome_iff_exists.mp hopen
    obtain ⟨f, hf, htest⟩ := Bloom.open_add hg item
    refine ⟨put it { it.entry with value := (g.add item).bits }, f, ?_, hx, ht, hhas, hf, htest⟩
    simp only [Store.bloomAdd, Store.bloomMutate, entry, hx, ht, hhas, hg, Bool.false_eq_true,
      if_false, Bool.not_true]
    rfl

theorem bloomAdd_of_not_takes (mk : BloomMK) (key item : Bytes) (expire : ℤ)
    (h : takes flagBloom (fun it => (Bloom.open_ mk.m mk.k it.entry.value).isSome) env.now version
      old = false) :
    ∃ tally, (Store.bloomAdd key item mk.m mk.k version expire : Verb LruItem Bool) env old =
      ⟨.keep, tally, fun _ => false⟩ := by
  obtain ⟨it, rfl, hx, hrest⟩ := not_takes_cases h
  rcases hrest with ⟨ht, hold⟩ | ⟨ht, hhas | ⟨hhas, hopen⟩⟩
  · refine ⟨.stale, ?_⟩
    simp only [Store.bloomAdd, Store.bloomMutate, entry, hx, ht, hold, Bool.false_eq_true,
      if_false, if_true]
    rfl
  · refine ⟨.quiet, ?_⟩
    simp only [Store.bloomAdd, Store.bloomMutate, entry, hx, ht, hhas, Bool.false_eq_true,
      if_false, Bool.not_false, if_true]
    rfl
  · refine ⟨.quiet, ?_⟩
    rw [Option.isSome_eq_false_iff, Option.isNone_iff_eq_none] at hopen
    simp only [Store.bloomAdd, Store.bloomMutate, entry, hx, ht, hhas, hopen, Bool.false_eq_true,
      if_false, Bool.not_true]
    rfl

/-- Where an add is refused there is no filter to test. -/
theorem bloomTest_of_not_takes (mk : BloomMK) (item : Bytes) (still : Bool)
    (h : takes flagBloom (fun it => (Bloom.open_ mk.m mk.k it.entry.value).isSome) env.now version
      old = false) : (Store.bloomTest item mk.m mk.k env old).ret still = false := by
  obtain ⟨it, rfl, hx, hrest⟩ := not_takes_cases h
  rcases hrest with ⟨ht, -⟩ | ⟨ht, hhas | ⟨hhas, hopen⟩⟩
  · simp [Store.bloomTest, Store.readLive, entry, hx, ht, Plan.skip]
  · simp [Store.bloomTest, Store.readLive, entry, hx, hhas, Plan.skip]
  · rw [Option.isSome_eq_false_iff, Option.isNone_iff_eq_none] at hopen
    simp [Store.bloomTest, Store.readLive, entry, hx, ht, hhas, hopen, Plan.skip]

/-- A filter has the item after an add exactly when the store takes the add. -/
theorem bloomTest_add_iff {m : Mem} {now : ℤ} (mk : BloomMK) (key item : Bytes)
    (hexp : Entry.Lasts (now + 1) expire) :
    ((m.perform now key (Store.bloomAdd key item mk.m mk.k version expire)).1.perform now key
        (Store.bloomTest item mk.m mk.k)).2 = true ↔
      takes flagBloom (fun it => (Bloom.open_ mk.m mk.k it.entry.value).isSome) now version
        (m.lookup key) = true := by
  cases htakes : takes flagBloom (fun it => (Bloom.open_ mk.m mk.k it.entry.value).isSome) now
      version (m.lookup key) with
  | true =>
    obtain ⟨it, f, hresult, hx, ht, hhas, hopen, htest⟩ := bloomAdd_of_takes (m.env now) mk key
      item htakes hexp
    have hkept : (m.perform now key (Store.bloomAdd key item mk.m mk.k version expire)).1.lookup
        key = some it := by
      refine m.lookup_perform_of_pinned ?_ (Entry.pinned_of_flags (by decide) hhas hx)
      simp only [Memory.expected, if_true]
      exact hresult
    have hx' : it.entry.expired now = false := hx
    rw [Memory.perform_ret, hkept,
      Store.bloomTest_of_live (Memory.env _ now) item hx' ht hhas hopen, htest]
  | false =>
    obtain ⟨tally, hplan⟩ := bloomAdd_of_not_takes (m.env now) mk key item expire htakes
    rw [Memory.perform_ret, Memory.lookup_perform_of_keep _ (by rw [hplan]),
      bloomTest_of_not_takes (Memory.env _ now) mk item _ htakes]

end Bloom

section Calls

theorem setContains_iff (m : Mem) (now : ℤ) (key item : Bytes) :
    (m.perform now key (Store.setContains item)).2 = true ↔
      seen setMode m now key item = some () := by
  have hseen : seen setMode m now key item =
      if (m.perform now key (Store.setContains item)).2 then some () else none := rfl
  rw [hseen]
  split <;> simp_all

def Write.verb (mk : BloomMK) (key : Bytes) (expire : ℤ) : Write → Verb LruItem Bool
  | .setAdd item => Store.setAdd key item 1 expire
  | .zAdd member score => Store.zAdd key member score 1 expire
  | .geoAdd member p => Store.geoAdd key member p 1 expire
  | .hSet field value => Store.hSet key field value 1 expire
  | .bloomAdd item => Store.bloomAdd key item mk.m mk.k 1 expire

/-- The owner unpacks the call that was forwarded. -/
theorem applyPut_ent (mk : BloomMK) {w : Write} (hw : w.Admitted) (key : Bytes) (ttl now : ℤ)
    (walk : Walk) (ks : KsRuntime) : applyPut mk key ttl now walk ks w.ent =
      onStore now key (w.verb mk key (expireAt now ttl)) (ks.observeVersion now walk key 1) := by
  cases w with
  | setAdd item => simp [applyPut, Write.ent, Entry.has, flagBloomAdd, flagSetAdd, Write.verb]
  | zAdd member score =>
    have hdecode := ZSet.decodeAdd_encodeAdd member score hw.2.1 hw.2.2
    simp [applyPut, Write.ent, Entry.has, flagBloomAdd, flagSetAdd, flagZSetAdd, Write.verb,
      hdecode]
  | geoAdd member p =>
    have hdecode := Geo.decodeAdd_encodeAdd member p hw.2.1 hw.2.2
    simp [applyPut, Write.ent, Entry.has, flagBloomAdd, flagSetAdd, flagZSetAdd, flagGeoAdd,
      Write.verb, hdecode]
  | hSet field value =>
    have hdecode := HashX.decodeSet_encodeSet field value hw.2.1 hw.2.2
    simp [applyPut, Write.ent, Entry.has, flagBloomAdd, flagSetAdd, flagZSetAdd, flagGeoAdd,
      flagHashSet, Write.verb, hdecode]
  | bloomAdd item => simp [applyPut, Write.ent, Entry.has, flagBloomAdd, Write.verb]

/-- A write is there after the owner's add exactly when the store takes the add. -/
theorem contained_verb_iff (mk : BloomMK) {w : Write} (hw : w.Admitted) (key : Bytes) {now : ℤ}
    (m : Mem) {expire : ℤ} (hexp : Entry.Lasts (now + 1) expire) :
    w.contained mk (m.perform now key (w.verb mk key expire)).1 now key ↔
      w.taken mk now (m.lookup key) = true := by
  cases w with
  | setAdd item =>
    exact (setContains_iff _ now key item).trans (seen_add_iff setMode rfl key item hexp)
  | zAdd member score =>
    have hvalid : zMode.valid score = true := by
      have hnan := hw.2.2
      simp [zMode, hnan]
    exact seen_add_iff zMode hvalid key member hexp
  | geoAdd member p => exact seen_add_iff gMode hw.2.2 key member hexp
  | hSet field value => exact seen_add_iff hMode rfl key field hexp
  | bloomAdd item => exact bloomTest_add_iff mk key item hexp

def oneMember : KsRuntime :=
  ⟨((Memory.newMemory 0 1000).perform 0 [0] (Store.setAdd [0] [5] 3 0)).1, ∅, 100⟩

def deletedName : KsRuntime :=
  ⟨((Memory.newMemory 0 1000).perform 0 [0] (Store.deleteIfVersion [0] 1)).1, ∅, 100⟩

end Calls

end Supercache.Forwarding
