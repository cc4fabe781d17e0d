import Supercache.Engine
import Supercache.Accounting
import Supercache.Edits

/-!
Item-level replication: the owner of a set, sorted set, geo index or hash sends one entry for each
item it adds or removes. The store does not compare the version of an entry with that of a live
value, so the replica ends with the owner's content exactly when, item by item, the last entry to
arrive does what the owner's last entry does.
-/
namespace Supercache.ItemReplication

open Wire Lru ByteMap Edits Replica

structure ItemMode (V : Type) where
  kind : Kind (Map V)
  addFlag : ℕ
  remFlag : ℕ
  add : Bytes → Bytes → V → ℕ → ℤ → Verb LruItem Bool
  rem : Bytes → Bytes → ℕ → ℤ → Verb LruItem Bool
  has : Verb LruItem Bool
  look : Bytes → Verb LruItem (Option V)
  encodeAdd : Bytes → V → Bytes
  decodeAdd : Bytes → Option (Bytes × V)
  /-- The values the mode does not refuse. -/
  valid : V → Bool
  /-- The lengths can be written. -/
  Fits : Bytes → V → Prop
  new_eq : kind.new = ∅
  add_eq : ∀ key item v version expireAt, add key item v version expireAt =
    kind.mutate key version expireAt (fun _ => version) fun s =>
      if valid v then some (s.insert item v) else none
  rem_eq : ∀ key item version expireAt, rem key item version expireAt =
    kind.removeVerb key version expireAt (fun _ => version) fun s => some (s.erase item)
  has_eq : has = kind.read false fun _ => true
  look_eq : ∀ item env old still,
    (look item env old).ret still = (kind.read none (fun s => s[item]?) env old).ret still
  decodeAdd_encodeAdd : ∀ item v, valid v = true → Fits item v →
    decodeAdd (encodeAdd item v) = some (item, v)
  load_flush : ∀ it : LruItem, it.entry.flags = kind.flag →
    kind.load it.flush.1 = kind.load it
  flag_self : (kind.flag &&& kind.flag != 0) = true
  flag_tombstone : (kind.flag &&& flagTombstone != 0) = false
  flag_pinned : kind.flag ∈ Entry.pinnedFlags
  add_self : (addFlag &&& addFlag != 0) = true
  rem_add : (remFlag &&& addFlag != 0) = false
  rem_self : (remFlag &&& remFlag != 0) = true

theorem if_contains (s : Map Unit) (item : Bytes) :
    (if Std.ExtTreeMap.contains s item then some () else none) = s[item]? := by
  rw [Std.ExtTreeMap.contains_eq_isSome_getElem?]
  cases s[item]? <;> rfl

def setMode : ItemMode Unit where
  kind := setKind
  addFlag := flagSetAdd
  remFlag := flagSetRemove
  add key item _ version expireAt := Store.setAdd key item version expireAt
  rem := Store.setRemove
  has := Store.hasSet
  look item := (Store.setContains item).map fun b => if b then some () else none
  encodeAdd item _ := item
  decodeAdd b := some (b, ())
  valid _ := true
  Fits _ _ := True
  new_eq := rfl
  add_eq _ _ _ _ _ := rfl
  rem_eq _ _ _ _ := rfl
  has_eq := rfl
  look_eq item env old still := by
    have hmap := setKind.ret_read_map (fun b => if b = true then some () else none) false
      (fun s => SetX.contains s item) env old still
    have hget : (fun s : Map Unit => if SetX.contains s item = true then some () else none) =
        fun s => s[item]? := funext fun s => if_contains s item
    rw [hget] at hmap
    exact hmap
  decodeAdd_encodeAdd _ _ _ _ := rfl
  load_flush _ := Mode.load_flush (m := .set)
  flag_self := rfl
  flag_tombstone := rfl
  flag_pinned := by decide
  add_self := rfl
  rem_add := rfl
  rem_self := rfl

def zMode : ItemMode UInt64 where
  kind := zKind
  addFlag := flagZSetAdd
  remFlag := flagZSetRem
  add := Store.zAdd
  rem := Store.zRem
  has := Store.hasZSet
  look := Store.zScore
  encodeAdd := ZSet.encodeAdd
  decodeAdd := ZSet.decodeAdd
  valid score := !FloatBits.isNaN score
  Fits member _ := member.length < 2 ^ 64
  new_eq := rfl
  add_eq key member score version expireAt := by
    unfold Store.zAdd
    congr 1
    funext z
    cases h : FloatBits.isNaN score <;> simp [ZSet.add, h]
  rem_eq _ _ _ _ := rfl
  has_eq := rfl
  look_eq _ _ _ _ := rfl
  decodeAdd_encodeAdd member score hs hm :=
    ZSet.decodeAdd_encodeAdd member score hm (by simpa using hs)
  load_flush _ := Mode.load_flush (m := .zset)
  flag_self := rfl
  flag_tombstone := rfl
  flag_pinned := by decide
  add_self := rfl
  rem_add := rfl
  rem_self := rfl

def gMode : ItemMode Geo.Point where
  kind := gKind
  addFlag := flagGeoAdd
  remFlag := flagGeoRem
  add := Store.geoAdd
  rem := Store.geoRem
  has := Store.hasGeo
  look := Store.geoPos
  encodeAdd := Geo.encodeAdd
  decodeAdd := Geo.decodeAdd
  valid := Geo.validCoord
  Fits member _ := member.length < 2 ^ 64
  new_eq := rfl
  add_eq _ _ _ _ _ := rfl
  rem_eq _ _ _ _ := rfl
  has_eq := rfl
  look_eq _ _ _ _ := rfl
  decodeAdd_encodeAdd member p hp hm := Geo.decodeAdd_encodeAdd member p hm hp
  load_flush _ := Mode.load_flush (m := .geo)
  flag_self := rfl
  flag_tombstone := rfl
  flag_pinned := by decide
  add_self := rfl
  rem_add := rfl
  rem_self := rfl

def hMode : ItemMode Bytes where
  kind := hKind
  addFlag := flagHashSet
  remFlag := flagHashDel
  add := Store.hSet
  rem := Store.hDel
  has := Store.hasHash
  look := Store.hGet
  encodeAdd := HashX.encodeSet
  decodeAdd := HashX.decodeSet
  valid _ := true
  Fits field value := field.length < 2 ^ 64 ∧ value.length < 2 ^ 64
  new_eq := rfl
  add_eq _ _ _ _ _ := rfl
  rem_eq _ _ _ _ := rfl
  has_eq := rfl
  look_eq _ _ _ _ := rfl
  decodeAdd_encodeAdd field value _ hfits :=
    HashX.decodeSet_encodeSet field value hfits.1 hfits.2
  load_flush _ := Mode.load_flush (m := .hash)
  flag_self := rfl
  flag_tombstone := rfl
  flag_pinned := by decide
  add_self := rfl
  rem_add := rfl
  rem_self := rfl

section Calls

variable {V : Type} (mode : ItemMode V)

inductive ItemCall (V : Type) where
  | add (item : Bytes) (v : V)
  | rem (item : Bytes)

def ItemCall.Fits : ItemCall V → Prop
  | .add item v => mode.Fits item v
  | .rem _ => True

def nextVersionFor (now : ℤ) (walk : Walk) (key : Bytes) (ks : KsRuntime) : KsRuntime × ℕ :=
  let (store, ver) := ks.store.perform now key Store.peekVersion
  { ks with store := store }.nextVersion now walk key (ver.getD 0)

def callLocal (key : Bytes) (ttl now : ℤ) (walk : Walk) (ks : KsRuntime) :
    ItemCall V → KsRuntime × Option Entry
  | .add item v =>
    let (ks, version) := nextVersionFor now walk key ks
    let expire := expireAt now ttl
    let (store, ok) := ks.store.perform now key (mode.add key item v version expire)
    ({ ks with store := store },
      if ok then some ⟨mode.encodeAdd item v, version, expire, mode.addFlag⟩ else none)
  | .rem item =>
    let (ks, version) := nextVersionFor now walk key ks
    let expire := expireAt now ttl
    let (store, ok) := ks.store.perform now key (mode.rem key item version expire)
    if ok then ({ ks with store := store }, some ⟨item, version, expire, mode.remFlag⟩)
    else ({ ks with store := (store.perform now key mode.has).1 }, none)

def applyPut (key : Bytes) (ttl now : ℤ) (walk : Walk) (ks : KsRuntime) (ent : Entry) :
    KsRuntime :=
  let ks := ks.observeVersion now walk key ent.version
  let expire := if ent.expireAt = 0 then expireAt now ttl else ent.expireAt
  if ent.has mode.addFlag then
    match mode.decodeAdd ent.value with
    | none => ks
    | some (item, v) =>
      { ks with store := (ks.store.perform now key (mode.add key item v ent.version expire)).1 }
  else if ent.has mode.remFlag then
    { ks with store := (ks.store.perform now key (mode.rem key ent.value ent.version expire)).1 }
  else ks

structure OwnerTurn (V : Type) where
  now : ℤ
  walk : Walk
  call : ItemCall V

def ownerRun (key : Bytes) (ttl : ℤ) (ks : KsRuntime) :
    List (OwnerTurn V) → KsRuntime × List Entry
  | [] => (ks, [])
  | t :: turns =>
    let (ks, ent) := callLocal mode key ttl t.now t.walk ks t.call
    let (ks, sent) := ownerRun key ttl ks turns
    (ks, ent.toList ++ sent)

def replicaRun (key : Bytes) (ttl : ℤ) (ks : KsRuntime) (arrivals : List Arrival) : KsRuntime :=
  arrivals.foldl (fun ks a => applyPut mode key ttl a.now a.walk ks a.ent) ks

def edit (ent : Entry) : Option (Edit V) :=
  if ent.has mode.addFlag then (mode.decodeAdd ent.value).map fun p => .put p.1 p.2
  else if ent.has mode.remFlag then some (.del ent.value)
  else none

def seen (m : Mem) (now : ℤ) (key item : Bytes) : Option V :=
  (m.perform now key (mode.look item)).2

end Calls

section Content

variable {V : Type} (mode : ItemMode V) {T : ℤ}

/-- The name is missing and the content empty, or it holds a value of the mode that
decodes to the content and does not expire before `T`. -/
def Carries (T : ℤ) (s : Map V) : Option LruItem → Prop
  | none => s = ∅
  | some it => it.entry.flags = mode.kind.flag ∧ Entry.Lasts T it.entry.expireAt ∧
      mode.kind.load it = some s

theorem tidy_carries {now : ℤ} (hnow : now < T) (s : Map V) : Tidy now (Carries mode T s) where
  flush := by
    rintro it ⟨hflags, hlasts, hload⟩
    obtain ⟨blob, hblob⟩ := it.entry_flush
    refine ⟨by rw [hblob]; exact hflags, by rw [hblob]; exact hlasts, ?_⟩
    rw [mode.load_flush it hflags, hload]
  expire := by
    rintro it hx ⟨-, hlasts, -⟩
    exact absurd (hx.symm.trans (Entry.expired_of_lasts hlasts hnow)) (by simp)

variable {mode} {m : Mem} {key : Bytes} {now : ℤ} {s : Map V}

variable {expireAt : ℤ} {it : LruItem}

/-- A live value of a mode is what a mutation works on. -/
theorem live_of_flags (hflags : it.entry.flags = mode.kind.flag) :
    it.entry.isTombstone = false ∧ it.entry.has mode.kind.flag = true :=
  ⟨(Entry.has_of_flags hflags _).trans mode.flag_tombstone,
    (Entry.has_of_flags hflags _).trans mode.flag_self⟩

/-- What a mutation stores stays: eviction spares live values of the mode. -/
theorem carries_stored {ρ : Type} {v : Verb LruItem ρ} (hnow : now < T)
    (hresult : (v (m.env now) (m.lookup key)).act.result (m.lookup key) = some it)
    (hcar : Carries mode T s (some it)) : (m.perform now key v).1.lookup key = some it := by
  obtain ⟨hflags, hlasts, -⟩ := hcar
  refine m.lookup_perform_of_pinned (a := it) ?_ ?_
  · simp only [Memory.expected, if_true]
    exact hresult
  · exact Entry.pinned_of_flags mode.flag_pinned (live_of_flags hflags).2
      (Entry.expired_of_lasts hlasts hnow)

theorem carries_commit (mode : ItemMode V) (s' : Map V) (version : ℕ)
    (hlasts : Entry.Lasts T it.entry.expireAt) (hexp : Entry.Lasts T expireAt) :
    Carries mode T s' (some (mode.kind.setSlot
      { it with entry := mode.kind.touched it.entry version expireAt } ⟨some s', true⟩)) := by
  refine ⟨?_, ?_, ?_⟩
  · rw [mode.kind.entry_setSlot]
    rfl
  · rw [mode.kind.entry_setSlot]
    exact hlasts.extend hexp
  · simp [Kind.load]

theorem carries_create {s' : Map V} {e : Entry} (hflags : e.flags = mode.kind.flag)
    (hexp : Entry.Lasts T e.expireAt) : Carries mode T s' (some (mode.kind.itemOf e s')) := by
  refine ⟨?_, ?_, ?_⟩
  · rw [Kind.itemOf, mode.kind.entry_setSlot]
    exact hflags
  · rw [Kind.itemOf, mode.kind.entry_setSlot]
    exact hexp
  · simp [Kind.load, Kind.itemOf]

section

variable (hcar : Carries mode T s (m.lookup key))
include hcar

section

variable (hnow : now < T) (hexp : Entry.Lasts T expireAt)
include hnow hexp

/-- A mutation does to the content what its function says, or is refused. -/
theorem perform_mutate (version : ℕ) (stored : Option ℕ → ℕ)
    (f : Map V → Option (Map V)) :
    (m.perform now key (mode.kind.mutate key version expireAt stored f)).2 = (f s).isSome ∧
      Carries mode T ((f s).getD s)
        ((m.perform now key (mode.kind.mutate key version expireAt stored f)).1.lookup key) := by
  rw [Memory.perform_ret]
  cases hlook : m.lookup key with
  | none =>
    rw [hlook] at hcar
    have hplan : mode.kind.mutate key version expireAt stored f (m.env now) none =
        mode.kind.create key (stored none) expireAt f := rfl
    cases hf : f s with
    | none =>
      have hcreate : mode.kind.create key (stored none) expireAt f = .drop false := by
        rw [Kind.create, mode.new_eq, ← show s = ∅ from hcar, hf]
      have hev : (mode.kind.mutate key version expireAt stored f (m.env now)
          (m.lookup key)).act.evicts = false := by rw [hlook, hplan, hcreate]; rfl
      rw [m.lookup_perform_of_not_evicts hev, hplan, hcreate]
      refine ⟨rfl, ?_⟩
      simp only [Memory.expected, if_true, hlook, hplan, hcreate]
      exact hcar
    | some s' =>
      let e : Entry := ⟨mode.kind.encode s', stored none, expireAt, mode.kind.flag⟩
      have hcreate : mode.kind.create key (stored none) expireAt f =
          ⟨.insert (entryCost key e) (mode.kind.itemOf e s'), .quiet, id⟩ := by
        rw [Kind.create, mode.new_eq, ← show s = ∅ from hcar, hf]
      have hnew : Carries mode T s' (some (mode.kind.itemOf e s')) := carries_create rfl hexp
      have hkept := carries_stored (v := mode.kind.mutate key version expireAt stored f) hnow
        (by rw [hlook, hplan, hcreate]; rfl) hnew
      rw [hkept, hplan, hcreate]
      exact ⟨rfl, hnew⟩
  | some it =>
    rw [hlook] at hcar
    obtain ⟨hflags, hlasts, hload⟩ := hcar
    obtain ⟨ht, hhas⟩ := live_of_flags hflags
    have hx : it.entry.expired (m.env now).now = false := Entry.expired_of_lasts hlasts hnow
    have hplan := mode.kind.mutate_of_live key version expireAt stored f hx ht hhas hload
    cases hf : f s with
    | none =>
      rw [hf] at hplan
      have hev : (mode.kind.mutate key version expireAt stored f (m.env now)
          (m.lookup key)).act.evicts = false := by rw [hlook, hplan]; rfl
      rw [m.lookup_perform_of_not_evicts hev, hplan]
      refine ⟨rfl, ?_⟩
      simp only [Memory.expected, if_true, hlook, hplan]
      exact ⟨hflags, hlasts, hload⟩
    | some s' =>
      rw [hf] at hplan
      have hnew := carries_commit mode s' (stored (some it.entry.version)) hlasts hexp
      have hkept := carries_stored (v := mode.kind.mutate key version expireAt stored f) hnow
        (by rw [hlook, hplan]; rfl) hnew
      rw [hkept, hplan]
      exact ⟨rfl, hnew⟩

theorem perform_add (item : Bytes) (v : V) (version : ℕ) :
    (m.perform now key (mode.add key item v version expireAt)).2 = mode.valid v ∧
      Carries mode T (if mode.valid v then s.insert item v else s)
        ((m.perform now key (mode.add key item v version expireAt)).1.lookup key) := by
  rw [mode.add_eq]
  have hspec := perform_mutate hcar hnow hexp version (fun _ => version) fun s =>
    if mode.valid v then some (s.insert item v) else none
  cases hv : mode.valid v with
  | true => simpa only [hv, if_true, Option.isSome_some, Option.getD_some] using hspec
  | false =>
    simpa only [hv, Bool.false_eq_true, if_false, Option.isSome_none, Option.getD_none]
      using hspec

/-- Removing from a missing name succeeds and leaves it missing. -/
theorem perform_rem (item : Bytes) (version : ℕ) :
    (m.perform now key (mode.rem key item version expireAt)).2 = true ∧
      Carries mode T (s.erase item)
        ((m.perform now key (mode.rem key item version expireAt)).1.lookup key) := by
  rw [mode.rem_eq]
  cases hlook : m.lookup key with
  | none =>
    have hplan : mode.kind.removeVerb key version expireAt (fun _ => version)
        (fun s => some (s.erase item)) (m.env now) (m.lookup key) = .skip true := by
      rw [hlook]
      rfl
    have hev : (mode.kind.removeVerb key version expireAt (fun _ => version)
        (fun s => some (s.erase item)) (m.env now) (m.lookup key)).act.evicts = false := by
      rw [hplan]
      rfl
    rw [hlook] at hcar
    rw [Memory.perform_ret, m.lookup_perform_of_not_evicts hev]
    simp only [Memory.expected, if_true, hlook]
    refine ⟨rfl, ?_⟩
    rw [show s = ∅ from hcar]
    exact Std.ExtTreeMap.erase_empty
  | some it =>
    have hlive := hcar
    rw [hlook] at hlive
    obtain ⟨hflags, hlasts, hload⟩ := hlive
    obtain ⟨ht, hhas⟩ := live_of_flags hflags
    have hx : it.entry.expired (m.env now).now = false := Entry.expired_of_lasts hlasts hnow
    have hplan : mode.kind.removeVerb key version expireAt (fun _ => version)
          (fun s => some (s.erase item)) (m.env now) (m.lookup key) =
        mode.kind.mutate key version expireAt (fun _ => version) (fun s => some (s.erase item))
          (m.env now) (m.lookup key) := by
      rw [hlook]
      simp [Kind.removeVerb, hx, ht, hhas]
    rw [m.perform_congr hplan]
    exact perform_mutate hcar hnow hexp version (fun _ => version) fun s => some (s.erase item)

end

theorem seen_of_carries (hnow : now < T)
    (item : Bytes) : seen mode m now key item = s[item]? := by
  unfold seen
  rw [Memory.perform_ret, mode.look_eq]
  cases hlook : m.lookup key with
  | none =>
    rw [hlook] at hcar
    rw [show s = ∅ from hcar, Std.ExtTreeMap.getElem?_empty]
    rfl
  | some it =>
    rw [hlook] at hcar
    obtain ⟨hflags, hlasts, hload⟩ := hcar
    obtain ⟨ht, hhas⟩ := live_of_flags hflags
    exact mode.kind.ret_read_of_live none _ (Entry.expired_of_lasts hlasts hnow) ht hhas hload _

end

theorem carries_nextVersionFor {ks : KsRuntime} (hcar : Carries mode T s (ks.store.lookup key))
    (hnow : now < T) (walk : Walk) :
    Carries mode T s ((nextVersionFor now walk key ks).1.store.lookup key) := by
  have htidy := tidy_carries mode hnow s
  exact htidy.nextVersion walk key _ _
    (htidy.looks (looking_peekVersion.lookup ks.store now key key) hcar)

end Content

section Runs

variable {V : Type} (mode : ItemMode V) {T : ℤ} {key : Bytes} {ttl : ℤ}

/-- An entry the owner may have sent: it does not expire before `T` and a replica does
not refuse it. -/
def Sendable (T : ℤ) (ent : Entry) : Prop :=
  Entry.Lasts T ent.expireAt ∧
    ∀ item v, edit mode ent = some (.put item v) → mode.valid v = true

theorem edit_add {item : Bytes} {v : V} (hv : mode.valid v = true) (hfits : mode.Fits item v)
    (version : ℕ) (expire : ℤ) :
    edit mode ⟨mode.encodeAdd item v, version, expire, mode.addFlag⟩ = some (.put item v) := by
  have hadd : Entry.has ⟨mode.encodeAdd item v, version, expire, mode.addFlag⟩ mode.addFlag =
      true := mode.add_self
  rw [edit, if_pos hadd, mode.decodeAdd_encodeAdd item v hv hfits]
  rfl

theorem edit_rem (item : Bytes) (version : ℕ) (expire : ℤ) :
    edit mode ⟨item, version, expire, mode.remFlag⟩ = some (.del item) := by
  have hadd : Entry.has ⟨item, version, expire, mode.remFlag⟩ mode.addFlag = false := mode.rem_add
  have hrem : Entry.has ⟨item, version, expire, mode.remFlag⟩ mode.remFlag = true := mode.rem_self
  rw [edit, if_neg (by simp [hadd]), if_pos hrem]

variable {mode}

variable {ks : KsRuntime} {s : Map V} {now : ℤ}

/-- A call of the owner does to its content what the entry it sends says. -/
theorem callLocal_carries (walk : Walk) (hcar : Carries mode T s (ks.store.lookup key))
    (hnow : now < T) (hexp : Entry.Lasts T (expireAt now ttl)) {call : ItemCall V}
    (hfits : call.Fits mode) : Carries mode T
        (applyAll s ((callLocal mode key ttl now walk ks call).2.toList.filterMap (edit mode)))
        ((callLocal mode key ttl now walk ks call).1.store.lookup key) ∧
      ∀ ent ∈ (callLocal mode key ttl now walk ks call).2, Sendable mode T ent := by
  have hmint := carries_nextVersionFor hcar hnow walk
  set minted := nextVersionFor now walk key ks with hminted
  cases call with
  | add item v =>
    obtain ⟨hret, hafter⟩ := perform_add hmint hnow hexp item v minted.2
    simp only [callLocal, ← hminted, hret]
    cases hv : mode.valid v with
    | false =>
      simp only [hv, Bool.false_eq_true, if_false] at hafter
      exact ⟨hafter, by simp⟩
    | true =>
      simp only [hv, if_true] at hafter
      have hedit := edit_add mode hv hfits minted.2 (expireAt now ttl)
      refine ⟨?_, ?_⟩
      · simp only [if_true, Option.toList_some, List.filterMap_cons, hedit, List.filterMap_nil]
        exact hafter
      · rintro ent hent
        obtain rfl := Option.some.inj hent
        refine ⟨hexp, fun item' v' hput => ?_⟩
        obtain ⟨rfl, rfl⟩ := Edit.put.inj (Option.some.inj (hedit.symm.trans hput))
        exact hv
  | rem item =>
    obtain ⟨hret, hafter⟩ := perform_rem hmint hnow hexp item minted.2
    have hedit := edit_rem mode item minted.2 (expireAt now ttl)
    simp only [callLocal, ← hminted, hret, if_true]
    refine ⟨?_, ?_⟩
    · simp only [Option.toList_some, List.filterMap_cons, hedit, List.filterMap_nil]
      exact hafter
    · rintro ent hent
      obtain rfl := Option.some.inj hent
      refine ⟨hexp, fun item' v' hput => ?_⟩
      exact absurd (hedit.symm.trans hput) (by simp)

/-- The owner ends with the content its entries lead to. -/
theorem ownerRun_carries {turns : List (OwnerTurn V)}
    (hcar : Carries mode T s (ks.store.lookup key)) (hturns : ∀ t ∈ turns,
      t.now < T ∧ Entry.Lasts T (expireAt t.now ttl) ∧ t.call.Fits mode) :
    Carries mode T (applyAll s ((ownerRun mode key ttl ks turns).2.filterMap (edit mode)))
        ((ownerRun mode key ttl ks turns).1.store.lookup key) ∧
      ∀ ent ∈ (ownerRun mode key ttl ks turns).2, Sendable mode T ent := by
  induction turns generalizing ks s with
  | nil => exact ⟨hcar, by simp [ownerRun]⟩
  | cons t turns ih =>
    obtain ⟨⟨hnow, hexp, hfits⟩, hrest⟩ := List.forall_mem_cons.mp hturns
    obtain ⟨hstep, hsend⟩ := callLocal_carries t.walk hcar hnow hexp hfits
    obtain ⟨hend, hsends⟩ := ih hstep hrest
    refine ⟨?_, ?_⟩
    · simp only [ownerRun, List.filterMap_append, applyAll, List.foldl_append]
      exact hend
    · simp only [ownerRun, List.mem_append, Option.mem_toList]
      rintro ent (hent | hent)
      · exact hsend ent hent
      · exact hsends ent hent

/-- A replica does to its content what an arriving entry says. -/
theorem applyPut_carries (walk : Walk) {ent : Entry} (hcar : Carries mode T s (ks.store.lookup key))
    (hnow : now < T) (hexp : Entry.Lasts T (expireAt now ttl)) (hsend : Sendable mode T ent) :
    Carries mode T (applyAll s (edit mode ent).toList)
      ((applyPut mode key ttl now walk ks ent).store.lookup key) := by
  obtain ⟨hlasts, hvalid⟩ := hsend
  have hobs := (tidy_carries mode hnow s).observeVersion walk key ent.version ks hcar
  have hexpire : Entry.Lasts T (if ent.expireAt = 0 then expireAt now ttl else ent.expireAt) := by
    split
    · exact hexp
    · exact hlasts
  unfold applyPut edit
  unfold edit at hvalid
  by_cases hadd : ent.has mode.addFlag
  · simp only [if_pos hadd]
    cases hdec : mode.decodeAdd ent.value with
    | none => exact hobs
    | some p =>
      have hv : mode.valid p.2 = true := by
        refine hvalid p.1 p.2 ?_
        rw [if_pos hadd, hdec]
        rfl
      have hafter := (perform_add hobs hnow hexpire p.1 p.2 ent.version).2
      rw [hv, if_pos rfl] at hafter
      exact hafter
  · simp only [if_neg hadd]
    split
    · exact (perform_rem hobs hnow hexpire ent.value ent.version).2
    · exact hobs

theorem replicaRun_carries {arrivals : List Arrival} (hcar : Carries mode T s (ks.store.lookup key))
    (harrivals : ∀ a ∈ arrivals,
      a.now < T ∧ Entry.Lasts T (expireAt a.now ttl) ∧ Sendable mode T a.ent) :
    Carries mode T (applyAll s (arrivals.filterMap fun a => edit mode a.ent))
      ((replicaRun mode key ttl ks arrivals).store.lookup key) := by
  induction arrivals generalizing ks s with
  | nil => exact hcar
  | cons a arrivals ih =>
    obtain ⟨⟨hnow, hexp, hsend⟩, hrest⟩ := List.forall_mem_cons.mp harrivals
    have hend := ih (applyPut_carries a.walk hcar hnow hexp hsend) hrest
    have hedits : applyAll s ((a :: arrivals).filterMap fun a => edit mode a.ent) =
        applyAll (applyAll s (edit mode a.ent).toList)
          (arrivals.filterMap fun a => edit mode a.ent) := by
      cases h : edit mode a.ent <;> simp [applyAll, h]
    rw [hedits]
    exact hend

/-- A replica that starts with the owner's content and receives the entries the owner
sent, all of them and any number of times, ends with the owner's content exactly when for
each item the last entry to arrive does what the last entry sent does. -/
theorem replica_agrees_iff (mode : ItemMode V) {s : Map V} {owner replica : KsRuntime}
    {turns : List (OwnerTurn V)} {arrivals : List Arrival} {now : ℤ}
    (howner : Carries mode T s (owner.store.lookup key))
    (hreplica : Carries mode T s (replica.store.lookup key))
    (hturns : ∀ t ∈ turns, t.now < T ∧ Entry.Lasts T (expireAt t.now ttl) ∧ t.call.Fits mode)
    (harrivals : ∀ a ∈ arrivals, a.now < T ∧ Entry.Lasts T (expireAt a.now ttl))
    (hsent : ∀ ent, ent ∈ arrivals.map Arrival.ent ↔ ent ∈ (ownerRun mode key ttl owner turns).2)
    (hnow : now < T) :
    (∀ item, seen mode (replicaRun mode key ttl replica arrivals).store now key item =
        seen mode (ownerRun mode key ttl owner turns).1.store now key item) ↔
      ∀ item, lastEffect item ((arrivals.map Arrival.ent).filterMap (edit mode)) =
        lastEffect item ((ownerRun mode key ttl owner turns).2.filterMap (edit mode)) := by
  obtain ⟨hown, hsendable⟩ := ownerRun_carries howner hturns
  have hrep := replicaRun_carries hreplica fun a ha =>
    ⟨(harrivals a ha).1, (harrivals a ha).2,
      hsendable a.ent ((hsent a.ent).mp (List.mem_map_of_mem ha))⟩
  have hedits : (arrivals.map Arrival.ent).filterMap (edit mode) =
      arrivals.filterMap fun a => edit mode a.ent := List.filterMap_map
  have hsame : ∀ e, e ∈ (arrivals.map Arrival.ent).filterMap (edit mode) ↔
      e ∈ (ownerRun mode key ttl owner turns).2.filterMap (edit mode) := by
    intro e
    simp only [List.mem_filterMap, hsent]
  rw [← hedits] at hrep
  rw [← applyAll_eq_iff s hsame]
  refine forall_congr' fun item => ?_
  rw [seen_of_carries hrep hnow, seen_of_carries hown hnow]

end Runs

section Orders

def twoAdds : List (OwnerTurn Unit) :=
  [⟨1, noWalk, .add [1] ()⟩, ⟨2, noWalk, .add [2] ()⟩]

def addedTwo : List Entry := [⟨[1], 1, 0, flagSetAdd⟩, ⟨[2], 2, 0, flagSetAdd⟩]

/-- Entries about different items may arrive the other way round, and twice. -/
theorem replica_agrees_two_adds :
    (ownerRun setMode [0] 0 emptyKeySpace twoAdds).2 = addedTwo ∧
      ∀ item,
        seen setMode (replicaRun setMode [0] 0 emptyKeySpace
          ((addedTwo.reverse ++ addedTwo.reverse).map fun ent => ⟨3, noWalk, ent⟩)).store
            4 [0] item =
        seen setMode (ownerRun setMode [0] 0 emptyKeySpace twoAdds).1.store 4 [0] item := by
  have hsent : (ownerRun setMode [0] 0 emptyKeySpace twoAdds).2 = addedTwo := by decide +kernel
  have hempty : Carries setMode 5 ∅ (emptyKeySpace.store.lookup [0]) := rfl
  refine ⟨hsent,
    (replica_agrees_iff setMode hempty hempty ?_ ?_ ?_ (show (4 : ℤ) < 5 by decide)).mpr ?_⟩
  · intro t ht
    fin_cases ht <;> exact ⟨by decide, Or.inl rfl, trivial⟩
  · intro a ha
    obtain ⟨ent, -, rfl⟩ := List.mem_map.mp ha
    exact ⟨show (3 : ℤ) < 5 by decide, Or.inl rfl⟩
  · intro ent
    rw [hsent]
    simp
  · intro item
    rw [hsent]
    have hadd : addedTwo.filterMap (edit setMode) = [.put [1] (), .put [2] ()] := rfl
    simp only [List.map_map, Function.comp_def, List.map_id', List.filterMap_append,
      List.filterMap_reverse, hadd]
    by_cases h1 : [1] = item
    · subst h1
      rfl
    · by_cases h2 : [2] = item
      · subst h2
        rfl
      · simp [lastEffect, Edit.key, h1, h2]

def addThenRemove : List (OwnerTurn Unit) :=
  [⟨1, noWalk, .add [1] ()⟩, ⟨2, noWalk, .rem [1]⟩]

/-- The replica that hears of the removal first keeps the item. -/
theorem replica_keeps_removed_item :
    (ownerRun setMode [0] 0 emptyKeySpace addThenRemove).2 =
        [⟨[1], 1, 0, flagSetAdd⟩, ⟨[1], 2, 0, flagSetRemove⟩] ∧
      seen setMode (ownerRun setMode [0] 0 emptyKeySpace addThenRemove).1.store 4 [0] [1] = none ∧
      seen setMode (replicaRun setMode [0] 0 emptyKeySpace
        [⟨3, noWalk, ⟨[1], 2, 0, flagSetRemove⟩⟩,
          ⟨3, noWalk, ⟨[1], 1, 0, flagSetAdd⟩⟩]).store 4 [0] [1] = some () := by
  refine ⟨?_, ?_, ?_⟩ <;> decide +kernel

end Orders

end Supercache.ItemReplication
