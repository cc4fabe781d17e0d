import Supercache.Coordinators
import Supercache.CounterReplication
import Supercache.DeletePush
import Supercache.Minting

/-!
The versions of a name across an update of its keyspace, which empties the store and keeps the
counters. Puts, deletes and the item calls of four modes mint from the counter and go on above
everything of before. The other modes take the version after the stored one and start again at
one, below what the replicas hold.
-/
namespace Supercache.ConfigUpdate

open Wire Lru Owner Schedule

inductive ItemOp where
  | setAdd (item : Bytes)
  | setRemove (item : Bytes)
  | zAdd (member : Bytes) (score : UInt64)
  | zRem (member : Bytes)
  | geoAdd (member : Bytes) (p : Geo.Point)
  | geoRem (member : Bytes)
  | hSet (field value : Bytes)
  | hDel (field : Bytes)

namespace ItemOp

def verb (key : Bytes) (version : ℕ) (expire : ℤ) : ItemOp → Verb LruItem Bool
  | setAdd item => Store.setAdd key item version expire
  | setRemove item => Store.setRemove key item version expire
  | zAdd member score => Store.zAdd key member score version expire
  | zRem member => Store.zRem key member version expire
  | geoAdd member p => Store.geoAdd key member p version expire
  | geoRem member => Store.geoRem key member version expire
  | hSet field value => Store.hSet key field value version expire
  | hDel field => Store.hDel key field version expire

def has : ItemOp → Option (Verb LruItem Bool)
  | setRemove _ => some Store.hasSet
  | zRem _ => some Store.hasZSet
  | geoRem _ => some Store.hasGeo
  | hDel _ => some Store.hasHash
  | _ => none

end ItemOp

inductive Item where
  | start
  | peeked (version : ℕ)
  | minted (version : ℕ) (expire : ℤ)
  | refused
  | finished
deriving DecidableEq

inductive Call where
  | put (value : Bytes) (ttl : ℤ) (stage : Put)
  | delete (stage : DeletePush.Delete)
  | item (op : ItemOp) (stage : Item)
  | incr (delta : ℤ) (stage : CounterReplication.Stage)
  | snap (mode : SnapshotReplication.Mode) (call : mode.protocol.Call)
      (stage : SnapshotReplication.Stage)

structure Moved where
  ks : KsRuntime
  call : Call
  sent : List ℕ

def itemLocal (key : Bytes) (ttl now : ℤ) (walk : Walk) (op : ItemOp) (ks : KsRuntime) :
    Item → Moved
  | .start =>
    let (store, ver) := ks.store.perform now key Store.peekVersion
    ⟨{ ks with store := store }, .item op (.peeked (ver.getD 0)), []⟩
  | .peeked ver =>
    let (ks, version) := ks.nextVersion now walk key ver
    ⟨ks, .item op (.minted version (expireAt now ttl)), []⟩
  | .minted version expire =>
    let (store, ok) := ks.store.perform now key (op.verb key version expire)
    if ok then ⟨{ ks with store := store }, .item op .finished, [version]⟩
    else ⟨{ ks with store := store }, .item op .refused, []⟩
  | .refused =>
    match op.has with
    | some has => ⟨{ ks with store := (ks.store.perform now key has).1 }, .item op .finished, []⟩
    | none => ⟨ks, .item op .finished, []⟩
  | .finished => ⟨ks, .item op .finished, []⟩

def advance (key : Bytes) (ttl now : ℤ) (walk : Walk) (ks : KsRuntime) : Call → Moved
  | .put value callTTL stage =>
    let (ks, new) := putLocalApply key value callTTL now walk ks stage
    ⟨ks, .put value callTTL new, (Coordinators.outgoing stage new).map Entry.version⟩
  | .delete stage =>
    let (ks, new) := DeletePush.deleteAsOwner key now walk ks stage
    ⟨ks, .delete new, match stage with | .minted version => [version] | _ => []⟩
  | .item op stage => itemLocal key ttl now walk op ks stage
  | .incr delta stage =>
    let (ks, new) := CounterReplication.incrLocal key ttl now walk delta ks stage
    ⟨ks, .incr delta new, (CounterReplication.outgoing stage).map Entry.version⟩
  | .snap mode call stage =>
    let (ks, new) := SnapshotReplication.callStep mode.protocol key ttl now walk call ks stage
    ⟨ks, .snap mode call new, (SnapshotReplication.outgoing stage).map Entry.version⟩

structure Sys where
  ks : KsRuntime
  calls : List Call
  /-- The versions stored under the name or fanned out for it. -/
  seen : List ℕ

def storedVersions (key : Bytes) (ks : KsRuntime) : List ℕ :=
  ((ks.store.lookup key).map fun it => it.entry.version).toList

theorem mem_storedVersions {key : Bytes} {ks : KsRuntime} {v : ℕ} :
    v ∈ storedVersions key ks ↔ ∃ it, ks.store.lookup key = some it ∧ it.entry.version = v := by
  simp [storedVersions]

def step (key : Bytes) (ttl : ℤ) (s : Sys) (t : Turn ℕ) : Sys :=
  match s.calls[t.who]? with
  | none => s
  | some c =>
    let r := advance key ttl t.now t.walk s.ks c
    ⟨r.ks, s.calls.set t.who r.call, r.sent ++ storedVersions key r.ks ++ s.seen⟩

def run (key : Bytes) (ttl : ℤ) (s : Sys) (turns : List (Turn ℕ)) : Sys :=
  turns.foldl (step key ttl) s

def begin_ (key : Bytes) (ks : KsRuntime) (calls : List Call) :
    Sys := ⟨ks, calls, storedVersions key ks⟩

def updateKeySpace (maxBytes tombstoneTTL : ℤ) (ks : KsRuntime) : KsRuntime :=
  { ks with store := Memory.newMemory maxBytes tombstoneTTL }

namespace Call

/-- The modes that mint from the counter: plain values, sets, sorted sets, geo indexes and
hashes. -/
def counted : Call → Bool
  | put .. | delete _ | item .. => true
  | incr .. | snap .. => false

def hand : Call → Option ℕ
  | put _ _ (.minted ent) => some ent.version
  | delete (.minted version) => some version
  | item _ (.minted version _) => some version
  | _ => none

def mints : Call → Option ℕ
  | put _ _ .start => some 0
  | delete .start => some 0
  | item _ (.peeked ver) => some ver
  | _ => none

def fresh : Call → Bool
  | put _ _ .start | delete .start | item _ .start => true
  | incr _ .start => true
  | snap _ _ .start => true
  | _ => false

end Call

/-- A section that mints is not at the end of the version range, and the prune after it
keeps the counter of the name. -/
def Tracks (key : Bytes) (s : Sys) (t : Turn ℕ) : Prop :=
  ∀ c ∈ s.calls[t.who]?, ∀ atLeast ∈ c.mints,
    max (s.ks.counter t.now key) atLeast + 1 < 2 ^ 64 ∧
      key ∈ (s.ks.nextVersion t.now t.walk key atLeast).1.lastVer

instance (key : Bytes) (s : Sys) (t : Turn ℕ) : Decidable (Tracks key s t) := by
  unfold Tracks
  infer_instance

/-- An item that is left has the version it had, or the one the call carries. -/
def Stamps (hand : Option ℕ) (old new : Option LruItem) : Prop :=
  ∀ it', new = some it' →
    hand = some it'.entry.version ∨ ∃ it, old = some it ∧ it'.entry.version = it.entry.version

section Stamps

variable {hand : Option ℕ} {old : Option LruItem} {it : LruItem} {version : ℕ}

theorem Stamps.same : Stamps hand old old := fun it' h => Or.inr ⟨it', h, rfl⟩

theorem Stamps.none : Stamps hand old none := fun _ h => absurd h (by simp)

theorem Stamps.new (h : it.entry.version = version) : Stamps (some version) old (some it) := by
  intro it' heq
  obtain rfl := Option.some.inj heq
  exact Or.inl (congrArg some h.symm)

theorem Stamps.kept {it' : LruItem} (h : it'.entry.version = it.entry.version) :
    Stamps hand (some it) (some it') := by
  intro it'' heq
  obtain rfl := Option.some.inj heq
  exact Or.inr ⟨it, rfl, h⟩

theorem Stamps.looks {now : ℤ} {new : Option LruItem} (h : Looks now old new) :
    Stamps hand old new := by
  cases h with
  | same => exact .same
  | flushed it =>
    obtain ⟨blob, hblob⟩ := it.entry_flush
    exact .kept (by rw [hblob])
  | expired it hx => exact .none

variable {σ : Type} (K : Kind σ) (env : Env) (key : Bytes) (expire : ℤ) (f : σ → Option σ)

theorem stamps_mutate : Stamps (some version) old
    ((K.mutate key version expire (fun _ => version) f env old).act.result old) := by
  have h := K.mutate_mutated key version expire (fun _ => version) f env old
  revert h
  generalize K.mutate key version expire (fun _ => version) f env old = plan
  intro h
  cases h with
  | refused old tally => exact .same
  | failed old hf => exact .none
  | created old s base hf hbase => exact .new (by rw [Kind.itemOf, K.entry_setSlot]; rfl)
  | committed it s s' ht hflag hload hf => exact .new (by rw [K.entry_setSlot]; rfl)

theorem stamps_remove : Stamps (some version) old
    ((K.removeVerb key version expire (fun _ => version) f env old).act.result old) := by
  unfold Kind.removeVerb
  split
  · exact .same
  · split
    · exact .none
    · split
      · split <;> exact .same
      · split
        · exact .same
        · exact stamps_mutate K env key expire f

variable {ρ : Type}

theorem stamps_read (miss : ρ) (g : σ → ρ) :
    Stamps hand old ((K.read miss g env old).act.result old) := by
  unfold Kind.read
  split
  · exact .same
  · split
    · exact .none
    · split
      · exact .same
      · split
        · exact .same
        · split
          · exact .same
          · exact .kept (by rw [K.entry_setSlot])

theorem stamps_acceptIfNewer (ent : Entry) : Stamps (some ent.version) old
    ((Store.acceptIfNewer key ent env old).act.result old) := by
  rcases Store.acceptIfNewer_result env key ent old with h | h
  · rw [h]
    exact .same
  · rw [h]
    exact .new rfl

theorem stamps_deleteIfVersion : Stamps (some version) old
    ((Store.deleteIfVersion key version env old).act.result old) := by
  unfold Store.deleteIfVersion
  cases old with
  | none => exact .new rfl
  | some it =>
    dsimp only
    split
    · exact .same
    · exact .new rfl

theorem stamps_item (op : ItemOp) :
    Stamps (some version) old ((op.verb key version expire env old).act.result old) := by
  cases op with
  | setAdd item => exact stamps_mutate setKind env key expire _
  | setRemove item => exact stamps_remove setKind env key expire _
  | zAdd member score => exact stamps_mutate zKind env key expire _
  | zRem member => exact stamps_remove zKind env key expire _
  | geoAdd member p => exact stamps_mutate gKind env key expire _
  | geoRem member => exact stamps_remove gKind env key expire _
  | hSet field value => exact stamps_mutate hKind env key expire _
  | hDel field => exact stamps_remove hKind env key expire _

theorem stamps_has {op : ItemOp} {has : Verb LruItem Bool} (h : op.has = some has) :
    Stamps hand old ((has env old).act.result old) := by
  cases op with
  | setRemove item => exact Option.some.inj h ▸ stamps_read setKind env false _
  | zRem member => exact Option.some.inj h ▸ stamps_read zKind env false _
  | geoRem member => exact Option.some.inj h ▸ stamps_read gKind env false _
  | hDel field => exact Option.some.inj h ▸ stamps_read hKind env false _
  | setAdd | zAdd | geoAdd | hSet => exact absurd h (by simp [ItemOp.has])

/-- Eviction only removes. -/
theorem stamps_perform {v : Verb LruItem ρ} (m : Mem) (now : ℤ)
    (h : ∀ env old, Stamps hand old ((v env old).act.result old)) :
    Stamps hand (m.lookup key) ((m.perform now key v).1.lookup key) := by
  rcases m.lookup_perform now key v key with heq | ⟨hnone, -⟩
  · rw [heq, Memory.expected, if_pos rfl]
    exact h _ _
  · rw [hnone]
    exact .none

end Stamps

/-- What a section of a counted call does: it mints, or it leaves the counters alone and at
most stamps the name with the version the call carries. -/
inductive Effect (key : Bytes) (now : ℤ) (walk : Walk) (ks : KsRuntime) (c : Call) (r : Moved) :
    Prop
  | mint (atLeast : ℕ) (hmints : c.mints = some atLeast)
    (hks : r.ks = (ks.nextVersion now walk key atLeast).1)
    (hhand : r.call.hand = some (ks.nextVersion now walk key atLeast).2) (hsent : r.sent = []) :
    Effect key now walk ks c r
  | apply (hcounters : r.ks.lastVer = ks.lastVer)
    (hstamps : Stamps c.hand (ks.store.lookup key) (r.ks.store.lookup key))
    (hhand : r.call.hand = none) (hsent : ∀ v ∈ r.sent, c.hand = some v) :
    Effect key now walk ks c r

section Advance

variable (key : Bytes) (ttl now : ℤ) (walk : Walk) (ks : KsRuntime)

theorem effect_put (value : Bytes) (callTTL : ℤ) (stage : Put) :
    Effect key now walk ks (.put value callTTL stage)
      (advance key ttl now walk ks (.put value callTTL stage)) := by
  have hpeek : ∀ hand, Stamps hand (ks.store.lookup key)
      ((ks.store.perform now key (Store.peek key)).1.lookup key) :=
    fun _ => .looks ((looking_peek key).lookup ks.store now key key)
  cases stage with
  | start => exact .mint 0 rfl rfl rfl rfl
  | minted ent =>
    have hstamps : Stamps (some ent.version) (ks.store.lookup key)
        ((ks.store.perform now key (Store.acceptIfNewer key ent)).1.lookup key) :=
      stamps_perform key ks.store now fun env old => stamps_acceptIfNewer env key ent
    simp only [advance, putLocalApply]
    cases (ks.store.perform now key (Store.acceptIfNewer key ent)).2 with
    | true => exact .apply rfl hstamps rfl (by simp [Coordinators.outgoing, Call.hand])
    | false => exact .apply rfl hstamps rfl (by simp [Coordinators.outgoing])
  | rejected ent =>
    simp only [advance, putLocalApply]
    split
    · exact .apply rfl (hpeek _) rfl (by simp [Coordinators.outgoing])
    · exact .apply rfl (hpeek _) rfl (by simp [Coordinators.outgoing])
  | recheck ent =>
    exact .apply rfl (hpeek _) rfl (by simp [advance, putLocalApply, Coordinators.outgoing])
  | finished ent failed =>
    exact .apply rfl .same rfl (by simp [advance, putLocalApply, Coordinators.outgoing])

theorem effect_delete (stage : DeletePush.Delete) :
    Effect key now walk ks (.delete stage) (advance key ttl now walk ks (.delete stage)) := by
  cases stage with
  | start => exact .mint 0 rfl rfl rfl rfl
  | minted version =>
    refine .apply rfl ?_ rfl (by simp [advance, Call.hand])
    exact stamps_perform key ks.store now fun env old => stamps_deleteIfVersion env key
  | finished => exact .apply rfl .same rfl (by simp [advance])

theorem effect_item (op : ItemOp) (stage : Item) :
    Effect key now walk ks (.item op stage) (advance key ttl now walk ks (.item op stage)) := by
  cases stage with
  | start =>
    have hlooks := looking_peekVersion.lookup ks.store now key key
    exact .apply rfl (.looks hlooks) rfl (by simp [advance, itemLocal])
  | peeked ver => exact .mint ver rfl rfl rfl rfl
  | minted version expire =>
    have hstamps : Stamps (some version) (ks.store.lookup key)
        ((ks.store.perform now key (op.verb key version expire)).1.lookup key) :=
      stamps_perform key ks.store now fun env old => stamps_item env key expire op
    simp only [advance, itemLocal]
    split
    · exact .apply rfl hstamps rfl (by simp [Call.hand])
    · exact .apply rfl hstamps rfl (by simp)
  | refused =>
    simp only [advance, itemLocal]
    split
    next has hhas =>
      refine .apply rfl ?_ rfl (by simp)
      exact stamps_perform key ks.store now fun env old => stamps_has env hhas
    · exact .apply rfl .same rfl (by simp)
  | finished => exact .apply rfl .same rfl (by simp [advance, itemLocal])

variable {c : Call}

theorem effect_advance (hc : c.counted = true) :
    Effect key now walk ks c (advance key ttl now walk ks c) := by
  cases c with
  | put value callTTL stage => exact effect_put key ttl now walk ks value callTTL stage
  | delete stage => exact effect_delete key ttl now walk ks stage
  | item op stage => exact effect_item key ttl now walk ks op stage
  | incr | snap => exact absurd hc (by simp [Call.counted])

theorem counted_advance (hc : c.counted = true) :
    (advance key ttl now walk ks c).call.counted = true := by
  cases c with
  | put value callTTL stage => rfl
  | delete stage => rfl
  | item op stage =>
    simp only [advance]
    cases stage <;> simp only [itemLocal]
    case minted => split <;> rfl
    case refused => split <;> rfl
    all_goals rfl
  | incr | snap => exact absurd hc (by simp [Call.counted])

end Advance

/-- Above what was there before the update, and not above the counter. -/
def Between (low high v : ℕ) : Prop := low ≤ v ∧ v ≤ high

/-- What holds in every state: every version stored, carried or fanned out lies between. -/
structure VersionsBetween (key : Bytes) (low : ℕ) (s : Sys) : Prop where
  base : low ≤ s.ks.tracked key + 1
  counted : ∀ c ∈ s.calls, c.counted = true
  carried : ∀ c ∈ s.calls, ∀ v ∈ c.hand, Between low (s.ks.tracked key) v
  stored : ∀ it, s.ks.store.lookup key = some it →
    Between low (s.ks.tracked key) it.entry.version
  seen : ∀ v ∈ s.seen, Between low (s.ks.tracked key) v

section Turns

variable {key : Bytes} {ttl : ℤ} {low : ℕ} {s : Sys} {t : Turn ℕ}

variable {ks : KsRuntime} {c : Call} {now : ℤ} {walk : Walk} {atLeast i : ℕ}

/-- A mint raises the counter of the name to the version it returns. -/
theorem tracked_nextVersion (hkept : key ∈ (ks.nextVersion now walk key atLeast).1.lastVer) :
    (ks.nextVersion now walk key atLeast).1.tracked key =
      (ks.nextVersion now walk key atLeast).2 := by
  rw [Std.ExtTreeMap.mem_iff_isSome_getElem?] at hkept
  simp only [KsRuntime.nextVersion] at hkept ⊢
  rcases Minting.lastVer_pruneLastVer now key walk
    { ks with
      store := (ks.store.perform now key Store.peekVersion).1
      lastVer := ks.lastVer.insert key (bump (max (max (ks.tracked key) atLeast)
        ((ks.store.perform now key Store.peekVersion).2.getD 0))) } with hsame | hnone
  · rw [KsRuntime.tracked, hsame]
    simp
  · rw [hnone] at hkept
    simp at hkept

/-- A mint goes above everything of before. -/
theorem VersionsBetween.mint (h : VersionsBetween key low s)
    (hroom : max (s.ks.counter now key) atLeast + 1 < 2 ^ 64)
    (hkept : key ∈ (s.ks.nextVersion now walk key atLeast).1.lastVer) (hc : c.counted = true)
    (hhand : c.hand = some (s.ks.nextVersion now walk key atLeast).2) :
    VersionsBetween key low ⟨(s.ks.nextVersion now walk key atLeast).1, s.calls.set i c,
      storedVersions key (s.ks.nextVersion now walk key atLeast).1 ++ s.seen⟩ := by
  have htracked := tracked_nextVersion hkept
  have hversion := nextVersion_version now walk key atLeast s.ks
  rw [bump_of_lt hroom] at hversion
  have hraised : s.ks.tracked key + 1 ≤ (s.ks.nextVersion now walk key atLeast).1.tracked key := by
    have hle : s.ks.tracked key ≤ s.ks.counter now key := le_max_left _ _
    omega
  have hwiden : ∀ v, Between low (s.ks.tracked key) v →
      Between low ((s.ks.nextVersion now walk key atLeast).1.tracked key) v :=
    fun v hv => ⟨hv.1, by have := hv.2; omega⟩
  have hstored : ∀ it, (s.ks.nextVersion now walk key atLeast).1.store.lookup key = some it →
      Between low ((s.ks.nextVersion now walk key atLeast).1.tracked key) it.entry.version := by
    have htidy : Tidy now fun old => ∀ it : LruItem, old = some it →
        Between low (s.ks.tracked key) it.entry.version :=
      tidy_of_entry now (P := fun e => Between low (s.ks.tracked key) e.version) fun _ _ h => h
    exact fun it hit => hwiden _ (htidy.nextVersion walk key atLeast s.ks h.stored it hit)
  refine ⟨?_, ?_, ?_, hstored, ?_⟩
  · exact h.base.trans (by dsimp only; omega)
  · exact Announce.forall_mem_set h.counted hc
  · refine Announce.forall_mem_set (fun c hc v hv => hwiden v (h.carried c hc v hv)) fun v hv => ?_
    rw [hhand, Option.mem_some_iff] at hv
    have hbase := h.base
    exact ⟨by omega, by dsimp only; omega⟩
  · refine List.forall_mem_append.mpr ⟨fun v hv => ?_, fun v hv => hwiden v (h.seen v hv)⟩
    obtain ⟨it, hit, rfl⟩ := mem_storedVersions.mp hv
    exact hstored it hit

/-- What is stored or fanned out is what the call carried. -/
theorem VersionsBetween.apply (h : VersionsBetween key low s) {c' : Call}
    (hi : s.calls[i]? = some c)
    (hcounters : ks.lastVer = s.ks.lastVer)
    (hstamps : Stamps c.hand (s.ks.store.lookup key) (ks.store.lookup key))
    (hc' : c'.counted = true) (hhand : c'.hand = none) {sent : List ℕ}
    (hsent : ∀ v ∈ sent, c.hand = some v) :
    VersionsBetween key low ⟨ks, s.calls.set i c', sent ++ storedVersions key ks ++ s.seen⟩ := by
  have htracked : ks.tracked key = s.ks.tracked key := by
    rw [KsRuntime.tracked, KsRuntime.tracked, hcounters]
  have hcarried := h.carried c (List.mem_of_getElem? hi)
  have hstored : ∀ it, ks.store.lookup key = some it →
      Between low (ks.tracked key) it.entry.version := by
    intro it hit
    rw [htracked]
    rcases hstamps it hit with hversion | ⟨it₀, hit₀, hversion⟩
    · exact hcarried _ hversion
    · rw [hversion]
      exact h.stored it₀ hit₀
  refine ⟨?_, Announce.forall_mem_set h.counted hc', ?_, hstored, ?_⟩
  · rw [htracked]
    exact h.base
  · rw [htracked]
    refine Announce.forall_mem_set h.carried fun v hv => ?_
    exact absurd hv (by simp [hhand])
  · refine List.forall_mem_append.mpr ⟨List.forall_mem_append.mpr ⟨fun v hv => ?_, fun v hv => ?_⟩,
      fun v hv => ?_⟩
    · rw [htracked]
      exact hcarried v (hsent v hv)
    · obtain ⟨it, hit, rfl⟩ := mem_storedVersions.mp hv
      exact hstored it hit
    · rw [htracked]
      exact h.seen v hv

theorem versionsBetween_step (h : VersionsBetween key low s) (htracks : Tracks key s t) :
    VersionsBetween key low (step key ttl s t) := by
  unfold step
  rcases hi : s.calls[t.who]? with _ | c
  · exact h
  · have hcounted := h.counted c (List.mem_of_getElem? hi)
    have hnext := counted_advance key ttl t.now t.walk s.ks hcounted
    dsimp only
    rcases effect_advance key ttl t.now t.walk s.ks hcounted with
      ⟨atLeast, hmints, hks, hhand, hsent⟩ | ⟨hcounters, hstamps, hhand, hsent⟩
    · obtain ⟨hroom, hkept⟩ := htracks c hi atLeast hmints
      rw [hks, hsent]
      exact h.mint hroom hkept hnext hhand
    · exact h.apply hi hcounters hstamps hnext hhand hsent

theorem hand_of_fresh (hc : c.fresh = true) : c.hand = none := by
  cases c with
  | put value ttl stage => cases stage <;> first | rfl | exact absurd hc (by simp [Call.fresh])
  | delete stage => cases stage <;> first | rfl | exact absurd hc (by simp [Call.fresh])
  | item op stage => cases stage <;> first | rfl | exact absurd hc (by simp [Call.fresh])
  | incr | snap => rfl

/-- Calls that have not begun, on a name whose counter is not behind. -/
theorem versionsBetween_begin {calls : List Call} (hlow : low ≤ ks.tracked key + 1)
    (hcalls : ∀ c ∈ calls, c.counted = true ∧ c.fresh = true)
    (hstored : ∀ it, ks.store.lookup key = some it →
      Between low (ks.tracked key) it.entry.version) : VersionsBetween key low
      (begin_ key ks calls) where
  base := hlow
  counted c hc := (hcalls c hc).1
  carried c hc v hv := absurd hv (by simp [hand_of_fresh (hcalls c hc).2])
  stored := hstored
  seen := by
    intro v hv
    obtain ⟨it, hit, rfl⟩ := mem_storedVersions.mp hv
    exact hstored it hit

end Turns

/-- Whatever the calls of a name before an update and their interleaving, and whatever those
after it: if they mint from the counter, and no prune drops the counter of the name, then
every version stored or fanned out after the update is above every one of before. -/
theorem update_raises_versions {key : Bytes} {ttl ttl' maxBytes tombstoneTTL : ℤ} {ks : KsRuntime}
    {before after : List Call} {turns turns' : List (Turn ℕ)}
    (hstart : Below (ks.tracked key + 1) (ks.store.lookup key))
    (hbefore : ∀ c ∈ before, c.counted = true ∧ c.fresh = true)
    (hafter : ∀ c ∈ after, c.counted = true ∧ c.fresh = true)
    (htracks : Along (step key ttl) (Tracks key) (begin_ key ks before) turns)
    (htracks' : Along (step key ttl') (Tracks key)
      (begin_ key (updateKeySpace maxBytes tombstoneTTL
        (run key ttl (begin_ key ks before) turns).ks) after) turns') :
    ∀ v ∈ (run key ttl (begin_ key ks before) turns).seen,
      ∀ w ∈ (run key ttl' (begin_ key (updateKeySpace maxBytes tombstoneTTL
        (run key ttl (begin_ key ks before) turns).ks) after) turns').seen, v < w := by
  have hold : VersionsBetween key 0 (run key ttl (begin_ key ks before) turns) :=
    htracks.invariant (fun _ _ h ht => versionsBetween_step h ht)
      (versionsBetween_begin (Nat.zero_le _) hbefore fun it hit =>
        ⟨Nat.zero_le _, Nat.lt_succ_iff.mp (hstart it hit)⟩)
  have hwiped : ∀ it, (updateKeySpace maxBytes tombstoneTTL
      (run key ttl (begin_ key ks before) turns).ks).store.lookup key ≠ some it :=
    fun _ hit => absurd (show (none : Option LruItem) = some _ from hit) (by simp)
  have hnew : VersionsBetween key ((run key ttl (begin_ key ks before) turns).ks.tracked key + 1)
      (run key ttl' (begin_ key (updateKeySpace maxBytes tombstoneTTL
        (run key ttl (begin_ key ks before) turns).ks) after) turns') :=
    htracks'.invariant (fun _ _ h ht => versionsBetween_step h ht)
      (versionsBetween_begin (le_refl _) hafter fun it hit => absurd hit (hwiped it))
  intro v hv w hw
  have hle := (hold.seen v hv).2
  have hlt := (hnew.seen w hw).1
  omega

def solo (sections : ℕ) : List (Turn ℕ) := List.replicate sections ⟨0, 1, ⟨[], []⟩⟩

def acrossUpdate (first second : Call) (sections : ℕ) : List ℕ × List ℕ :=
  let s := run [0] 0 (begin_ [0] emptyKeySpace [first]) (solo sections)
  (s.seen, (run [0] 0 (begin_ [0] (updateKeySpace 0 0 s.ks) [second]) (solo sections)).seen)

/-- An item call before the update and one after it. -/
theorem update_raises_versions_of_set :
    acrossUpdate (.item (.setAdd [1]) .start) (.item (.setAdd [2]) .start) 3 = ([1, 1], [2, 2]) ∧
      ∀ v ∈ (acrossUpdate (.item (.setAdd [1]) .start) (.item (.setAdd [2]) .start) 3).1,
        ∀ w ∈ (acrossUpdate (.item (.setAdd [1]) .start) (.item (.setAdd [2]) .start) 3).2,
          v < w := by
  refine ⟨by decide +kernel, ?_⟩
  exact update_raises_versions (by decide +kernel) (by simp [Call.counted, Call.fresh])
    (by simp [Call.counted, Call.fresh]) (by decide +kernel) (by decide +kernel)

def afterStored : List Call :=
  [.incr 1 .start, .snap .list (.rPush [1]) .start, .snap .json (.set [36] [49] 0) .start,
    .snap .bitmap (⟨0, true, 0⟩ : SnapshotReplication.BSet) .start,
    .snap .hll (⟨[1], 0⟩ : SnapshotReplication.HLLAdd) .start,
    .snap (.topK 1) (⟨[1], 0⟩ : SnapshotReplication.TopKAdd) .start,
    .snap .vectorSet (.add [1] [0, 0] 0) .start, .snap .stream (.add [1] 0 0 5) .start]

/-- The call after the update stores version one again, and a list fans it out again. -/
theorem update_restarts_versions :
    (∀ c ∈ afterStored, acrossUpdate c c 2 = ([1], [1])) ∧
      acrossUpdate (.snap .list (.rPush [1]) .start) (.snap .list (.rPush [2]) .start) 6 =
        ([1, 1, 1, 1, 1, 1], [1, 1, 1, 1, 1, 1]) := by
  decide +kernel

end Supercache.ConfigUpdate
