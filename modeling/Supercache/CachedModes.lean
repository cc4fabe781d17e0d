import Supercache.PlainModes

/-!
The modes whose decoded value stays attached to the item: set, sorted set, geo index, list and
hash. A mutation changes the cached value and marks it dirty; the entry's own bytes follow when
the entry is read. The modes differ in their codec and in which version a mutation stores.
-/
namespace Supercache

open Wire Lru

namespace Kind

variable {σ ρ : Type} (K : Kind σ)

def itemOf (e : Entry) (s : σ) : LruItem := K.setSlot (LruItem.new e) ⟨some s, false⟩

def touched (e : Entry) (version : ℕ) (expireAt : ℤ) : Entry :=
  { e with version := version, expireAt := Entry.extend e.expireAt expireAt, flags := K.flag }

def commit (key : Bytes) (it : LruItem) (s : σ) (version : ℕ) (expireAt : ℤ) : Act LruItem :=
  .write (key.length + 64 + K.approxWireBytes s)
    (K.setSlot { it with entry := K.touched it.entry version expireAt } ⟨some s, true⟩)
    Store.inPlace

def create (key : Bytes) (version : ℕ) (expireAt : ℤ) (f : σ → Option σ) : Plan LruItem Bool :=
  match f K.new with
  | none => .drop false
  | some s =>
    let e : Entry := ⟨K.encode s, version, expireAt, K.flag⟩
    ⟨.insert (entryCost key e) (K.itemOf e s), .quiet, id⟩

/-- The mutation the modes share. `stored` gives the version to store from the
version of the live entry or of the tombstone in the way. -/
def mutate (key : Bytes) (version : ℕ) (expireAt : ℤ) (stored : Option ℕ → ℕ)
    (f : σ → Option σ) : Verb LruItem Bool := fun env old =>
  match old with
  | none => K.create key (stored none) expireAt f
  | some it =>
    if it.entry.expired env.now then K.create key (stored none) expireAt f
    else if it.entry.isTombstone then
      if version ≤ it.entry.version then .stale false
      else K.create key (stored (some it.entry.version)) expireAt f
    else if it.entry.has K.flag then
      match K.load it with
      | none => .skip false
      | some s =>
        match f s with
        | none => .skip false
        | some s => ⟨K.commit key it s (stored (some it.entry.version)) expireAt, .quiet, id⟩
    else .skip false

def created (s : σ) (stored : Option ℕ → ℕ) (base : Option ℕ) (expireAt : ℤ) : Entry :=
  ⟨K.encode s, stored base, expireAt, K.flag⟩

inductive Mutated (key : Bytes) (expireAt : ℤ) (stored : Option ℕ → ℕ) (f : σ → Option σ) :
    Option LruItem → Plan LruItem Bool → Prop
  | refused (old : Option LruItem) (tally : Tally) :
    Mutated key expireAt stored f old ⟨.keep, tally, fun _ => false⟩
  | failed (old : Option LruItem) (hf : f K.new = none) :
    Mutated key expireAt stored f old (.drop false)
  | created (old : Option LruItem) (s : σ) (base : Option ℕ) (hf : f K.new = some s)
    (hbase : ∀ v, base = some v → ∃ it, old = some it ∧ it.entry.version = v) :
    Mutated key expireAt stored f old
      ⟨.insert (entryCost key (K.created s stored base expireAt))
        (K.itemOf (K.created s stored base expireAt) s), .quiet, id⟩
  | committed (it : LruItem) (s s' : σ) (ht : it.entry.isTombstone = false)
    (hflag : it.entry.has K.flag = true) (hload : K.load it = some s) (hf : f s = some s') :
    Mutated key expireAt stored f (some it)
      ⟨K.commit key it s' (stored (some it.entry.version)) expireAt, .quiet, id⟩

theorem create_mutated (key : Bytes) (expireAt : ℤ) (stored : Option ℕ → ℕ) (f : σ → Option σ)
    (old : Option LruItem) (base : Option ℕ)
    (hbase : ∀ v, base = some v → ∃ it, old = some it ∧ it.entry.version = v) :
    K.Mutated key expireAt stored f old (K.create key (stored base) expireAt f) := by
  unfold create
  rcases hf : f K.new with _ | s
  · exact .failed old hf
  · exact .created old s base hf hbase

section

variable (key : Bytes) (version : ℕ) (expireAt : ℤ) (stored : Option ℕ → ℕ) (f : σ → Option σ)

/-- All that a mutation can come to. -/
theorem mutate_mutated (env : Env) (old : Option LruItem) :
    K.Mutated key expireAt stored f old (K.mutate key version expireAt stored f env old) := by
  cases old with
  | none => exact K.create_mutated key expireAt stored f none none nofun
  | some it =>
    simp only [mutate]
    split
    · exact K.create_mutated key expireAt stored f (some it) none nofun
    · by_cases ht : it.entry.isTombstone
      · rw [if_pos ht]
        split
        · exact .refused (some it) .stale
        · refine K.create_mutated key expireAt stored f (some it) (some it.entry.version) ?_
          exact fun v hv => ⟨it, rfl, Option.some.inj hv⟩
      · rw [if_neg ht]
        by_cases hflag : it.entry.has K.flag
        · rw [if_pos hflag]
          rcases hload : K.load it with _ | s
          · exact .refused (some it) .quiet
          · dsimp only
            split
            · exact .refused (some it) .quiet
            next s' hf =>
              exact .committed it s s' (Bool.eq_false_iff.mpr ht) hflag hload hf
        · rw [if_neg hflag]
          exact .refused (some it) .quiet

theorem mutate_of_live {env : Env} {it : LruItem} {s : σ}
    (hx : it.entry.expired env.now = false) (ht : it.entry.isTombstone = false)
    (hflag : it.entry.has K.flag = true) (hload : K.load it = some s) :
    K.mutate key version expireAt stored f env (some it) = match f s with
      | none => .skip false
      | some s => ⟨K.commit key it s (stored (some it.entry.version)) expireAt, .quiet, id⟩ := by
  simp only [mutate, hx, ht, hflag, hload, Bool.false_eq_true, if_false, if_true]

end

def removeVerb (key : Bytes) (version : ℕ) (expireAt : ℤ) (stored : Option ℕ → ℕ)
    (f : σ → Option σ) : Verb LruItem Bool := fun env old =>
  match old with
  | none => .skip true
  | some it =>
    if it.entry.expired env.now then .drop true
    else if it.entry.isTombstone then
      if version ≤ it.entry.version then .stale false else .skip true
    else if !it.entry.has K.flag then .skip false
    else K.mutate key version expireAt stored f env old

def read (miss : ρ) (f : σ → ρ) : Verb LruItem ρ := fun env old =>
  match old with
  | none => .skip miss
  | some it =>
    if it.entry.expired env.now then .drop miss
    else if it.entry.isTombstone ∨ !it.entry.has K.flag then .skip miss
    else
      match (K.slot it).cache with
      | some s => .skip (f s)
      | none =>
        match K.decode it.entry.value with
        | none => .skip miss
        | some s => ⟨.amend (K.setSlot it ⟨some s, (K.slot it).dirty⟩) false, .quiet, fun _ => f s⟩

theorem ret_read_map {τ : Type} (g : ρ → τ) (miss : ρ) (f : σ → ρ) (env : Env)
    (old : Option LruItem) (still : Bool) : g ((K.read miss f env old).ret still) =
      (K.read (g miss) (fun s => g (f s)) env old).ret still := by
  unfold read
  split
  · rfl
  · split
    · rfl
    · split
      · rfl
      · split
        · rfl
        · split <;> rfl

theorem ret_read_of_live (miss : ρ) (f : σ → ρ) {env : Env} {it : LruItem} {s : σ}
    (hx : it.entry.expired env.now = false) (ht : it.entry.isTombstone = false)
    (hhas : it.entry.has K.flag = true) (hload : K.load it = some s) (still : Bool) :
    (K.read miss f env (some it)).ret still = f s := by
  unfold load at hload
  cases hcache : (K.slot it).cache with
  | some s' =>
    simp only [hcache, Option.some.injEq] at hload
    simp [read, hx, ht, hhas, hcache, hload, Plan.skip]
  | none =>
    simp only [hcache] at hload
    simp [read, hx, ht, hhas, hcache, hload]

end Kind

namespace Store

def setInstallGate (version : ℕ) (e : Entry) : Option Tally :=
  if e.isTombstone then if version ≤ e.version then some .stale else none
  else if e.has flagSet then
    if version < e.version then some .stale
    else if version = e.version then some .quiet
    else none
  else if version ≤ e.version then some .quiet
  else none

/-- A snapshot behind a gate. The old element is removed before the blob is decoded. -/
def cachedInstall {σ : Type} (K : Kind σ) (gate : Entry → Option Tally) (key blob : Bytes)
    (version : ℕ) (expireAt : ℤ) : Verb LruItem Bool := fun env old =>
  let install : Plan LruItem Bool :=
    match K.decode blob with
    | none => .drop false
    | some s =>
      let e : Entry := ⟨blob, version, expireAt, K.flag⟩
      ⟨.insert (entryCost key e) (K.itemOf e s), .quiet, id⟩
  match old with
  | none => install
  | some it =>
    if it.entry.expired env.now then install
    else
      match gate it.entry with
      | some tally => ⟨.keep, tally, fun _ => false⟩
      | none => install

section Set

def setAdd (key item : Bytes) (version : ℕ) (expireAt : ℤ) : Verb LruItem Bool :=
  setKind.mutate key version expireAt (fun _ => version) fun s => some (SetX.add s item)

def setRemove (key item : Bytes) (version : ℕ) (expireAt : ℤ) : Verb LruItem Bool :=
  setKind.removeVerb key version expireAt (fun _ => version) fun s => some (SetX.remove s item)

def setContains (item : Bytes) : Verb LruItem Bool :=
  setKind.read false fun s => SetX.contains s item

def hasSet : Verb LruItem Bool := setKind.read false fun _ => true

def setCard : Verb LruItem ℕ := setKind.read 0 SetX.len

def setMembers : Verb LruItem (List Bytes) := setKind.read [] SetX.members

def setInstall (key blob : Bytes) (version : ℕ) (expireAt : ℤ) : Verb LruItem Bool :=
  cachedInstall setKind (setInstallGate version) key blob version expireAt

end Set

section ZSet

def zAdd (key member : Bytes) (score : UInt64) (version : ℕ) (expireAt : ℤ) : Verb LruItem Bool :=
  zKind.mutate key version expireAt (fun _ => version) fun z => ZSet.add z member score

def zRem (key member : Bytes) (version : ℕ) (expireAt : ℤ) : Verb LruItem Bool :=
  zKind.removeVerb key version expireAt (fun _ => version) fun z => some (ZSet.rem z member)

def zScore (member : Bytes) : Verb LruItem (Option UInt64) :=
  zKind.read none fun z => ZSet.score z member

def zCard : Verb LruItem ℕ := zKind.read 0 ZSet.card

def hasZSet : Verb LruItem Bool := zKind.read false fun _ => true

def zRange (start stop : ℤ) : Verb LruItem (List (Bytes × UInt64)) :=
  zKind.read [] fun z => ZSet.range z start stop

def zRangeByScore (min max : UInt64) : Verb LruItem (List (Bytes × UInt64)) :=
  zKind.read [] fun z => ZSet.rangeByScore z min max

def zInstall (key blob : Bytes) (version : ℕ) (expireAt : ℤ) : Verb LruItem Bool :=
  cachedInstall zKind (installGate flagZSet version) key blob version expireAt

end ZSet

section Geo

def geoAdd (key member : Bytes) (p : Geo.Point) (version : ℕ) (expireAt : ℤ) : Verb LruItem Bool :=
  gKind.mutate key version expireAt (fun _ => version) fun g => Geo.add g member p

def geoRem (key member : Bytes) (version : ℕ) (expireAt : ℤ) : Verb LruItem Bool :=
  gKind.removeVerb key version expireAt (fun _ => version) fun g => some (Geo.rem g member)

def geoPos (member : Bytes) : Verb LruItem (Option Geo.Point) :=
  gKind.read none fun g => Geo.pos g member

def geoCard : Verb LruItem ℕ := gKind.read 0 Geo.card

def hasGeo : Verb LruItem Bool := gKind.read false fun _ => true

def geoDist (a b : Bytes) : Verb LruItem (Option UInt64) := gKind.read none fun g => Geo.dist g a b

def geoRadius (centre : Geo.Point) (radiusM : UInt64) (limit : ℤ) :
    Verb LruItem (List Geo.Member) :=
  gKind.read [] fun g => Geo.radius g centre radiusM limit

def geoInstall (key blob : Bytes) (version : ℕ) (expireAt : ℤ) : Verb LruItem Bool :=
  cachedInstall gKind (installGate flagGeo version) key blob version expireAt

end Geo

section List

def nextStored : Option ℕ → ℕ
  | none => 1
  | some version => bump version

def lPush (key item : Bytes) (version : ℕ) (expireAt : ℤ) : Verb LruItem Bool :=
  lKind.mutate key version expireAt nextStored fun l => some (ListX.lPush l item)

def rPush (key item : Bytes) (version : ℕ) (expireAt : ℤ) : Verb LruItem Bool :=
  lKind.mutate key version expireAt nextStored fun l => some (ListX.rPush l item)

def popVerb (key : Bytes) (version : ℕ) (expireAt : ℤ)
    (pop : ListX.Items → Option (Bytes × ListX.Items)) : Verb LruItem (Option Bytes × Bool) :=
  fun env old =>
    match old with
    | none => .skip (none, true)
    | some it =>
      if it.entry.expired env.now then .drop (none, true)
      else if it.entry.isTombstone then
        if version ≤ it.entry.version then .stale (none, false) else .skip (none, true)
      else if !it.entry.has flagList then .skip (none, false)
      else
        match lKind.load it with
        | none => .skip (none, false)
        | some l =>
          match pop l with
          | none => .skip (none, true)
          | some (item, l) =>
            ⟨lKind.commit key it l (bump it.entry.version) expireAt, .quiet,
              fun _ => (some item, true)⟩

def lPop (key : Bytes) (version : ℕ) (expireAt : ℤ) : Verb LruItem (Option Bytes × Bool) :=
  popVerb key version expireAt ListX.lPop

def rPop (key : Bytes) (version : ℕ) (expireAt : ℤ) : Verb LruItem (Option Bytes × Bool) :=
  popVerb key version expireAt ListX.rPop

def lLen : Verb LruItem ℕ := lKind.read 0 ListX.len

def hasList : Verb LruItem Bool := lKind.read false fun _ => true

def lIndex (idx : ℤ) : Verb LruItem (Option Bytes) := lKind.read none fun l => ListX.index l idx

def lRange (start stop : ℤ) : Verb LruItem (List Bytes) :=
  lKind.read [] fun l => ListX.range l start stop

def lInstall (key blob : Bytes) (version : ℕ) (expireAt : ℤ) : Verb LruItem Bool :=
  cachedInstall lKind (installGate flagList version) key blob version expireAt

end List

section Hash

def hSet (key field value : Bytes) (version : ℕ) (expireAt : ℤ) : Verb LruItem Bool :=
  hKind.mutate key version expireAt (fun _ => version) fun h => some (HashX.set h field value)

def hDel (key field : Bytes) (version : ℕ) (expireAt : ℤ) : Verb LruItem Bool :=
  hKind.removeVerb key version expireAt (fun _ => version) fun h => some (HashX.del h field)

def hGet (field : Bytes) : Verb LruItem (Option Bytes) := hKind.read none fun h => HashX.get h field

def hExists (field : Bytes) : Verb LruItem Bool := hKind.read false fun h => HashX.exists_ h field

def hLen : Verb LruItem ℕ := hKind.read 0 HashX.len

def hasHash : Verb LruItem Bool := hKind.read false fun _ => true

def hGetAll : Verb LruItem (List (Bytes × Bytes)) := hKind.read [] HashX.all

def hInstall (key blob : Bytes) (version : ℕ) (expireAt : ℤ) : Verb LruItem Bool :=
  cachedInstall hKind (installGate flagHash version) key blob version expireAt

end Hash

end Store

end Supercache
