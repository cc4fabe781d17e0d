import Supercache.Ops

/-!
A versioned delete keeps its key deleted. While the tombstone is unexpired it
turns away every write that is not newer, hides the key from every read, and is
pinned, so that no amount of memory pressure from other keys removes it.
-/
namespace Supercache

open Wire Lru

namespace Store

/-! Each family of verbs has a gate of its own for an unexpired tombstone. -/

section PlainGates

variable {α ρ : Type} [Stored α] {env : Env} {a : α} (hx : (entry a).expired env.now = false)
include hx

theorem plainInstall_of_gate {gate : Entry → Option Tally} {tally : Tally}
    (hgate : gate (entry a) = some tally) (flag : ℕ) (key blob : Bytes) (version : ℕ)
    (expireAt : ℤ) :
    (plainInstall gate flag key blob version expireAt env (some a)).act = .keep := by
  simp [plainInstall, hx, hgate]

variable {version : ℕ} {e : Entry}

omit hx in
theorem installGate_of_le (hv : version ≤ e.version) (flag : ℕ) :
    ∃ tally, installGate flag version e = some tally := by
  simp [installGate, hv]

theorem checkedInstall_of_le (hv : version ≤ (entry a).version) (ok : Bool) (flag : ℕ)
    (key blob : Bytes) (expireAt : ℤ) :
    (checkedInstall ok flag key blob version expireAt env (some a)).act = .keep := by
  obtain ⟨tally, hgate⟩ := installGate_of_le hv flag
  unfold checkedInstall
  split
  · exact plainInstall_of_gate hx hgate flag key blob version expireAt
  · rfl

variable (ht : (entry a).isTombstone = true)
include ht

theorem readLive_of_tombstone (flag : ℕ) (miss : ρ) (f : Entry → ρ) :
    readLive flag miss f env (some a) = .skip miss := by
  simp [readLive, hx, ht]

variable {version : ℕ} (hv : version ≤ (entry a).version)
include hv

theorem mutatePlain_of_tombstone (flag : ℕ) (key : Bytes) (expireAt : ℤ) (refused : ρ)
    (op : Option Bytes → Outcome ρ) :
    mutatePlain flag key version expireAt refused op env (some a) = .stale refused := by
  simp [mutatePlain, hx, ht, hv]

theorem removePlain_of_tombstone (flag : ℕ) (key : Bytes) (expireAt : ℤ)
    (op : Bytes → Option Bytes) :
    removePlain flag key version expireAt op env (some a) = .stale false := by
  simp [removePlain, hx, ht, hv]

theorem bloomMutate_of_tombstone (key : Bytes) (m k : ℕ) (expireAt : ℤ)
    (f : Bloom.Filter → Bloom.Filter) :
    bloomMutate key m k version expireAt f env (some a) = .stale false := by
  simp [bloomMutate, hx, ht, hv]

end PlainGates

section CachedGates

variable {σ ρ : Type} (K : Kind σ) {env : Env} {it : LruItem}
  (hx : it.entry.expired env.now = false)
include hx

theorem cachedInstall_of_gate {gate : Entry → Option Tally} {tally : Tally}
    (hgate : gate it.entry = some tally) (key blob : Bytes) (version : ℕ) (expireAt : ℤ) :
    (cachedInstall K gate key blob version expireAt env (some it)).act = .keep := by
  simp [cachedInstall, hx, hgate]

variable {version : ℕ}

theorem cachedInstall_of_le (hv : version ≤ it.entry.version) (flag : ℕ) (key blob : Bytes)
    (expireAt : ℤ) :
    (cachedInstall K (installGate flag version) key blob version expireAt env (some it)).act =
      .keep := by
  obtain ⟨tally, hgate⟩ := installGate_of_le hv flag
  exact cachedInstall_of_gate K hx hgate key blob version expireAt

theorem jInstall_of_le (hv : version ≤ it.entry.version) (key blob : Bytes) (expireAt : ℤ) :
    (jInstall key blob version expireAt env (some it)).act = .keep := by
  obtain ⟨tally, hgate⟩ := installGate_of_le hv flagJSON
  unfold jInstall
  split
  · rfl
  · simp [hx, hgate]

variable (ht : it.entry.isTombstone = true)
include ht

theorem read_of_tombstone (miss : ρ) (f : σ → ρ) : K.read miss f env (some it) = .skip miss := by
  simp [Kind.read, hx, ht]

theorem jGet_of_tombstone (path : Bytes) : jGet path env (some it) = .skip none := by
  simp [jGet, hx, ht]

variable {version : ℕ} (hv : version ≤ it.entry.version)
include hv

theorem setInstall_of_tombstone (key blob : Bytes) (expireAt : ℤ) :
    (setInstall key blob version expireAt env (some it)).act = .keep := by
  have hgate : setInstallGate version it.entry = some .stale := by
    simp [setInstallGate, ht, hv]
  exact cachedInstall_of_gate setKind hx hgate key blob version expireAt

end CachedGates

end Store

/-- How a call deals with what is there: it reads a live value, looks at
whatever is stored, writes under a version, or writes regardless. -/
inductive Access where
  | read
  | inspect
  | write (version : ℕ)
  | force
deriving DecidableEq

def PlainCall.access : PlainCall → Access
  | get | cGet | hasCounter | bloomTest .. | bGet _ | bCount .. | bPos .. | hasBitmap
  | hllCount | hasHLL | topkList _ | hasTopK | cmsQuery _ | hasCMS | vSim .. | vCard | vDim
  | vEmb _ | hasVectorSet | xRange .. | xLen | hasStream => .read
  | peek | peekVersion => .inspect
  | set _ | delete => .force
  | acceptIfNewer e | acceptNegative e => .write e.version
  | deleteIfVersion v | cIncr _ v _ | cInstall _ v _ | bloomAdd _ _ _ v _ | bloomMerge _ _ _ v _
  | bSet _ _ v _ _ | bInstall _ v _ | hllAdd _ v _ _ | hllInstall _ v _ | topkAdd _ v _ _ _
  | topkInstall _ v _ _ | cmsIncr _ _ v _ _ | cmsInstall _ v _ | vAdd _ _ v _ _ | vRem _ v _
  | vsInstall _ v _ | xAdd _ v _ _ _ _ | xDel _ v _ | xTrim _ v _ | sxInstall _ v _ => .write v

def CachedCall.access : CachedCall → Access
  | setContains _ | hasSet | setCard | setMembers | zScore _ | zCard | hasZSet | zRange ..
  | zRangeByScore .. | geoPos _ | geoCard | hasGeo | geoDist .. | geoRadius .. | lLen | hasList
  | lIndex _ | lRange .. | hGet _ | hExists _ | hLen | hasHash | hGetAll | jGet _ | hasJSON =>
    .read
  | setAdd _ v _ | setRemove _ v _ | setInstall _ v _ | zAdd _ _ v _ | zRem _ v _ | zInstall _ v _
  | geoAdd _ _ v _ | geoRem _ v _ | geoInstall _ v _ | lPush _ v _ | rPush _ v _ | lPop v _
  | rPop v _ | lInstall _ v _ | hSet _ _ v _ | hDel _ v _ | hInstall _ v _ | jSet _ _ v _ _
  | jDel _ v _ | jInstall _ v _ => .write v

def Call.access : Call → Access
  | plain c => c.access
  | cached c => c.access

def PlainCall.tests : PlainCall → Bool
  | hasCounter | bloomTest .. | hasBitmap | hasHLL | hasTopK | hasCMS | hasVectorSet
  | hasStream => true
  | _ => false

def CachedCall.tests : CachedCall → Bool
  | setContains _ | hasSet | hasZSet | hasGeo | hasList | hExists _ | hasHash | hasJSON => true
  | _ => false

def Call.tests : Call → Bool
  | plain c => c.tests
  | cached c => c.tests

open Store

section Hidden

variable {env : Env} {it : LruItem} (hx : (entry it).expired env.now = false)
  (ht : (entry it).isTombstone = true)
include hx ht

variable {c : PlainCall} {v : ℕ}

/-- A write that is not newer leaves a tombstone as it is, except for a delete. -/
theorem PlainCall.act_of_write (hc : c.access = .write v) (hv : v ≤ (entry it).version)
    (hdel : ∀ w, c ≠ .deleteIfVersion w) (key : Bytes) :
    (c.verb key env (some it)).act = .keep := by
  cases c <;> simp only [PlainCall.access, Access.write.injEq, reduceCtorEq] at hc <;> subst hc
  case deleteIfVersion w => exact absurd rfl (hdel w)
  case acceptIfNewer e => exact congrArg Plan.act (acceptIfNewer_of_le env it key hx hv)
  case acceptNegative e =>
    simp only [PlainCall.verb, Verb.map, Store.acceptNegative, hx, ht, hv]
    split <;> rfl
  case cIncr => simp [PlainCall.verb, Verb.map, Store.cIncr, hx, ht, hv, Plan.stale]
  case bloomAdd item m k w x =>
    exact congrArg Plan.act (bloomMutate_of_tombstone hx ht hv key m k x _)
  case bloomMerge bits m k w x =>
    simp only [PlainCall.verb, Verb.map, Store.bloomMerge]
    split
    · rfl
    · exact congrArg Plan.act (bloomMutate_of_tombstone hx ht hv key m k x _)
  case cInstall | bInstall | hllInstall | topkInstall | cmsInstall | vsInstall =>
    exact checkedInstall_of_le hx hv _ _ _ _ _
  case sxInstall blob w x =>
    simp only [PlainCall.verb, Verb.map, Store.sxInstall]
    split
    · exact plainInstall_of_gate hx (if_pos hv) _ key blob _ x
    · rfl
  case vRem => exact congrArg Plan.act (removePlain_of_tombstone hx ht hv ..)
  all_goals
    simp only [PlainCall.verb, Verb.map, Store.bSet, Store.hllAdd, Store.topkAdd, Store.cmsIncr,
      Store.vAdd, Store.xAdd, Store.xDel, Store.xTrim,
      mutatePlain_of_tombstone hx ht hv, removePlain_of_tombstone hx ht hv]
    repeat' split
    all_goals rfl

theorem CachedCall.act_of_write {c : CachedCall} (hc : c.access = .write v)
    (hv : v ≤ (entry it).version) (key : Bytes) : (c.verb key env (some it)).act = .keep := by
  cases c <;> simp only [CachedCall.access, Access.write.injEq, reduceCtorEq] at hc <;> subst hc
  case zInstall | geoInstall | lInstall | hInstall => exact cachedInstall_of_le _ hx hv ..
  case setInstall => exact setInstall_of_tombstone hx ht hv ..
  case jInstall => exact jInstall_of_le hx hv ..
  all_goals
    simp only [Stored.entry] at hx ht hv
    simp only [CachedCall.verb, Verb.map, Store.setAdd, Store.zAdd, Store.geoAdd, Store.lPush,
      Store.rPush, Store.hSet, Store.setRemove, Store.zRem, Store.geoRem, Store.hDel, Store.lPop,
      Store.rPop, Store.jSet, Store.jDel, Kind.mutate, Kind.removeVerb, popVerb, hx, ht, hv,
      if_true, Bool.false_eq_true, if_false]
    first | rfl | (split <;> rfl)

def Hides {ρ : Type} (v : Verb LruItem ρ) (env : Env) (it : LruItem) : Prop :=
  (v env (some it)).act = .keep ∧
    ∀ env' still still', (v env (some it)).ret still = (v env' none).ret still'

omit hx ht in
theorem Hides.of_skip {ρ τ : Type} {v : Verb LruItem ρ} {miss : ρ}
    (hskip : v env (some it) = .skip miss) (hnone : ∀ env', v env' none = .skip miss)
    (f : ρ → τ) : Hides (v.map f) env it := by
  simp only [Hides, Verb.map, hskip, hnone]
  exact ⟨rfl, fun _ _ _ => rfl⟩

/-- So does a read of a deleted key. -/
theorem PlainCall.read_of_tombstone (hc : c.access = .read) (key : Bytes) :
    Hides (c.verb key) env it := by
  cases c <;> simp only [PlainCall.access, reduceCtorEq] at hc
  case get =>
    simp only [Hides, PlainCall.verb, Verb.map, get_of_tombstone env it key hx ht]
    exact ⟨trivial, fun _ _ _ => rfl⟩
  case xRange start stop count rev =>
    simp only [Hides, PlainCall.verb, Verb.map, Store.xRange, liveStream,
      readLive_of_tombstone hx ht]
    split <;> exact ⟨rfl, fun _ _ _ => rfl⟩
  all_goals exact .of_skip (readLive_of_tombstone hx ht ..) (fun _ => rfl) _

theorem CachedCall.read_of_tombstone {c : CachedCall} (hc : c.access = .read) (key : Bytes) :
    Hides (c.verb key) env it := by
  cases c <;> simp only [CachedCall.access, reduceCtorEq] at hc
  case jGet path => exact .of_skip (jGet_of_tombstone hx ht path) (fun _ => rfl) _
  case hasJSON => exact .of_skip (readLive_of_tombstone hx ht ..) (fun _ => rfl) _
  all_goals exact .of_skip (Store.read_of_tombstone _ hx ht ..) (fun _ => rfl) _

end Hidden

variable {t₀ : ℤ} {v : ℕ} {c : Call} {m : Mem} {k : Bytes}

/-- On a missing key a test says no. -/
theorem Call.ret_of_tests (hc : c.tests = true) (key : Bytes) (env : Env) (still : Bool) :
    (c.verb key env none).ret still = .bool false := by
  cases c with
  | plain c => cases c <;> first | rfl | exact absurd hc (by simp [Call.tests, PlainCall.tests])
  | cached c => cases c <;> first | rfl | exact absurd hc (by simp [Call.tests, CachedCall.tests])

theorem Call.access_of_tests (hc : c.tests = true) : c.access = .read := by
  cases c with
  | plain c => cases c <;> first | rfl | exact absurd hc (by simp [Call.tests, PlainCall.tests])
  | cached c => cases c <;> first | rfl | exact absurd hc (by simp [Call.tests, CachedCall.tests])

/-- Before the expiry of a tombstone laid at `t₀`, which never comes when
tombstones are kept forever. -/
def Before (ttl t₀ t : ℤ) : Prop := ttl ≤ 0 ∨ t < t₀ + ttl

structure Buried (ttl t₀ : ℤ) (v : ℕ) (e : Entry) : Prop where
  isTombstone : e.isTombstone = true
  version : e.version = v
  lasts : ∀ t, Before ttl t₀ t → e.expired t = false

theorem buried_tombstone (env : Env) (hnow : t₀ ≤ env.now) (v : ℕ) :
    Buried env.tombstoneTTL t₀ v (tombstone env v) where
  isTombstone := by simp only [tombstone, Entry.isTombstone, Entry.has]; decide
  version := rfl
  lasts := by
    intro t ht
    simp only [tombstone, tombstoneExpireAt, Entry.expired, Bool.and_eq_false_iff]
    rcases ht with httl | hlt
    · simp [httl]
    · split
      · simp
      · exact Or.inr (decide_eq_false (by omega))

def Access.Within (v : ℕ) : Access → Prop
  | write w => w ≤ v
  | force => False
  | _ => True

/-- No harmless call digs a tombstone up. -/
theorem Call.result_of_buried (env : Env) {it : LruItem}
    (hbur : Buried env.tombstoneTTL t₀ v it.entry) (hlate : t₀ ≤ env.now)
    (hbefore : Before env.tombstoneTTL t₀ env.now) (hc : c.access.Within v) (key : Bytes) :
    ∃ it', (c.verb key env (some it)).act.result (some it) = some it' ∧
      Buried env.tombstoneTTL t₀ v it'.entry := by
  have hx : (entry it).expired env.now = false := hbur.lasts _ hbefore
  have ht : (entry it).isTombstone = true := hbur.isTombstone
  have hkeep : (c.verb key env (some it)).act = .keep → ∃ it',
      (c.verb key env (some it)).act.result (some it) = some it' ∧
        Buried env.tombstoneTTL t₀ v it'.entry := by
    intro hact
    exact ⟨it, by rw [hact]; rfl, hbur⟩
  cases c with
  | cached c =>
    cases hacc : c.access with
    | read => exact hkeep (CachedCall.read_of_tombstone hx ht hacc key).1
    | write w =>
      simp only [Call.access, hacc, Access.Within] at hc
      exact hkeep (CachedCall.act_of_write hx ht hacc (hc.trans hbur.version.ge) key)
    | inspect => cases c <;> simp [CachedCall.access] at hacc
    | force => cases c <;> simp [CachedCall.access] at hacc
  | plain c =>
    cases hacc : c.access with
    | read => exact hkeep (PlainCall.read_of_tombstone hx ht hacc key).1
    | write w =>
      simp only [Call.access, hacc, Access.Within] at hc
      by_cases hdel : ∃ w', c = .deleteIfVersion w'
      · -- only a delete at the same version gets past, and it lays a new tombstone
        obtain ⟨w', rfl⟩ := hdel
        simp only [PlainCall.access, Access.write.injEq] at hacc
        rcases Nat.lt_or_ge w' v with hlt | hge
        · have hlt' : w' < (entry it).version := hlt.trans_eq hbur.version.symm
          refine hkeep ?_
          simp only [Call.verb, PlainCall.verb, Verb.map, deleteIfVersion, hx, hlt']
          rfl
        · obtain rfl : w' = v := by omega
          refine ⟨put it (tombstone env w'), ?_, buried_tombstone env hlate w'⟩
          have hstored : ¬ w' < (entry it).version := by
            have := hbur.version
            change ¬ w' < it.entry.version
            omega
          simp [Call.verb, PlainCall.verb, Verb.map, deleteIfVersion, hx, hstored, Act.result]
      · refine hkeep (PlainCall.act_of_write hx ht hacc (hc.trans hbur.version.ge) ?_ key)
        exact fun w' hw' => hdel ⟨w', hw'⟩
    | inspect =>
      cases c <;> simp only [PlainCall.access, reduceCtorEq] at hacc
      case peekVersion => exact hkeep (congrArg Plan.act (peekVersion_of_unexpired env it hx))
      case peek =>
        obtain ⟨blob, hblob⟩ := it.entry_flush
        refine ⟨it.flush.1, ?_, ?_⟩
        · simp only [Call.verb, PlainCall.verb, Verb.map, peek_of_unexpired env it key hx]
          exact result_touch key it false
        · rw [hblob]
          exact ⟨hbur.isTombstone, hbur.version, hbur.lasts⟩
    | force => simp [Call.access, hacc, Access.Within] at hc

/-- The state of a deleted key: an item whose entry is buried. -/
def Deleted (m : Mem) (k : Bytes) (t₀ : ℤ) (v : ℕ) : Prop :=
  ∃ it, m.lookup k = some it ∧ Buried m.tombstoneTTL t₀ v it.entry

/-- A call no earlier than `t₀`, before the tombstone expires, and with nothing
newer than `v` for the key `k`. -/
structure Op.Harmless (ttl t₀ : ℤ) (k : Bytes) (v : ℕ) (op : Op) : Prop where
  late : t₀ ≤ op.now
  before : Before ttl t₀ op.now
  within : op.key = k → op.call.access.Within v

/-- No harmless call brings a deleted key back. -/
theorem deleted_step (hm : Deleted m k t₀ v) {op : Op} (hop : op.Harmless m.tombstoneTTL t₀ k v) :
    Deleted (step m op).1 k t₀ v := by
  obtain ⟨it, hit, hbur⟩ := hm
  obtain ⟨it', hexp, hbur'⟩ : ∃ it', m.expected op.now op.key (op.call.verb op.key) k = some it' ∧
      Buried m.tombstoneTTL t₀ v it'.entry := by
    unfold Memory.expected
    by_cases hk : k = op.key
    · rw [if_pos hk]
      rw [← hk, hit]
      exact Call.result_of_buried (m.env op.now) hbur hop.late hop.before
        (hop.within hk.symm) k
    · rw [if_neg hk]
      exact ⟨it, hit, hbur⟩
  refine ⟨it', m.lookup_perform_of_pinned hexp ?_, hbur'⟩
  exact Entry.pinned_of_isTombstone hbur'.isTombstone (hbur'.lasts _ hop.before)

@[simp]
theorem run_tombstoneTTL (m : Mem) (ops : List Op) : (run m ops).tombstoneTTL = m.tombstoneTTL := by
  induction ops generalizing m with
  | nil => rfl
  | cons op ops ih => exact ih (step m op).1

theorem deleted_run (hm : Deleted m k t₀ v) (ops : List Op)
    (hops : ∀ op ∈ ops, op.Harmless m.tombstoneTTL t₀ k v) : Deleted (run m ops) k t₀ v := by
  induction ops generalizing m with
  | nil => exact hm
  | cons op ops ih =>
    rw [List.forall_mem_cons] at hops
    exact ih (deleted_step hm hops.1) hops.2

/-- A delete that reports success buries its key. -/
theorem deleted_of_deleteIfVersion
    (hdel : (step m ⟨t₀, k, .plain (.deleteIfVersion v)⟩).2 = .bool true) :
    Deleted (step m ⟨t₀, k, .plain (.deleteIfVersion v)⟩).1 k t₀ v := by
  have hbur : Buried m.tombstoneTTL t₀ v (tombstone (m.env t₀) v) :=
    buried_tombstone (m.env t₀) (Int.le_refl t₀) v
  obtain ⟨it, hexp, hit⟩ : ∃ it,
      m.expected t₀ k (Call.verb k (.plain (.deleteIfVersion v))) k = some it ∧
        it.entry = tombstone (m.env t₀) v := by
    simp only [step, Memory.perform_ret] at hdel
    simp only [Memory.expected, if_true]
    simp only [Call.verb, PlainCall.verb, Verb.map, deleteIfVersion] at hdel ⊢
    cases hlook : m.lookup k with
    | none => exact ⟨_, rfl, rfl⟩
    | some it =>
      simp only [hlook] at hdel ⊢
      by_cases hgate : (!(entry it).expired (Memory.env m t₀).now) = true ∧ v < (entry it).version
      · rw [if_pos hgate] at hdel
        simp [Plan.stale] at hdel
      · rw [if_neg hgate] at hdel
        rw [if_neg hgate]
        exact ⟨_, rfl, rfl⟩
  rw [← hit] at hbur
  refine ⟨it, m.lookup_perform_of_pinned hexp ?_, hbur⟩
  exact Entry.pinned_of_isTombstone hbur.isTombstone (hbur.lasts t₀ (by unfold Before; omega))

/-- Every read of a deleted key answers as if nothing had ever been stored. -/
theorem read_of_deleted (hm : Deleted m k t₀ v) {now : ℤ} (hnow : Before m.tombstoneTTL t₀ now)
    (hc : c.access = .read) (env : Env) (still : Bool) :
    (step m ⟨now, k, c⟩).2 = (c.verb k env none).ret still := by
  obtain ⟨it, hit, hbur⟩ := hm
  have hx : (entry it).expired (m.env now).now = false := hbur.lasts now hnow
  have ht : (entry it).isTombstone = true := hbur.isTombstone
  simp only [step, Memory.perform_ret]
  rw [hit]
  cases c with
  | plain c => exact (PlainCall.read_of_tombstone hx ht hc k).2 _ _ _
  | cached c => exact (CachedCall.read_of_tombstone hx ht hc k).2 _ _ _

/-- A successful delete at version `v` holds until its tombstone expires: as long
as every later call on the key carries a version of at most `v`, whatever happens
to the other keys, every read misses and the key's version is still `v`. -/
theorem no_resurrection (m : Mem) (k : Bytes) (v : ℕ) (t₀ : ℤ)
    (hdel : (step m ⟨t₀, k, .plain (.deleteIfVersion v)⟩).2 = .bool true) (ops : List Op)
    (hops : ∀ op ∈ ops, op.Harmless m.tombstoneTTL t₀ k v) (now : ℤ)
    (hnow : Before m.tombstoneTTL t₀ now) :
    let m' := run (step m ⟨t₀, k, .plain (.deleteIfVersion v)⟩).1 ops
    (step m' ⟨now, k, .plain .get⟩).2 = .entry none ∧
      (step m' ⟨now, k, .plain .peekVersion⟩).2 = .optNat (some v) ∧
      (∀ c : Call, c.tests = true → (step m' ⟨now, k, c⟩).2 = .bool false) ∧
      ∀ c : Call, c.access = .read →
        (step m' ⟨now, k, c⟩).2 = (step (Memory.newMemory 0 0) ⟨now, k, c⟩).2 := by
  intro m'
  have hm' : Deleted m' k t₀ v := deleted_run (deleted_of_deleteIfVersion hdel) ops hops
  have hbefore : Before m'.tombstoneTTL t₀ now := by rw [run_tombstoneTTL]; exact hnow
  refine ⟨read_of_deleted hm' hbefore rfl (m'.env now) true, ?_, ?_, ?_⟩
  · obtain ⟨it, hit, hbur⟩ := hm'
    have hx : (entry it).expired (m'.env now).now = false := hbur.lasts now hbefore
    simp only [step, Memory.perform_ret, Call.verb, PlainCall.verb, Verb.map]
    rw [hit, peekVersion_of_unexpired (m'.env now) it hx]
    exact congrArg (fun w => Ret.optNat (some w)) hbur.version
  · intro c hc
    rw [read_of_deleted hm' hbefore (Call.access_of_tests hc) (m'.env now) true]
    exact Call.ret_of_tests hc k _ _
  · intro c hc
    exact read_of_deleted hm' hbefore hc _ _

/-- Two writes to other keys around a late put are more than a store of 199 bytes takes: the first
of them is evicted, and the tombstone stays. -/
theorem no_resurrection_under_pressure :
    let m : Mem := Memory.newMemory 199 100
    let m' := run (step m ⟨10, [1], .plain (.deleteIfVersion 3)⟩).1
      [⟨20, [2], .plain (.set ⟨[0, 0], 1, 0, 0⟩)⟩,
      ⟨30, [1], .plain (.acceptIfNewer ⟨[7], 3, 0, 0⟩)⟩,
        ⟨40, [3], .plain (.set ⟨[0, 0, 0], 1, 0, 0⟩)⟩]
    m'.cache.evictions = 1 ∧ m'.lookup [2] = none ∧
      (step m' ⟨105, [1], .plain .get⟩).2 = .entry none ∧
      (step m' ⟨105, [1], .plain .peekVersion⟩).2 = .optNat (some 3) := by
  intro m m'
  obtain ⟨hget, hpeek, -, -⟩ := no_resurrection m [1] 3 10 rfl
    [⟨20, [2], .plain (.set ⟨[0, 0], 1, 0, 0⟩)⟩, ⟨30, [1], .plain (.acceptIfNewer ⟨[7], 3, 0, 0⟩)⟩,
      ⟨40, [3], .plain (.set ⟨[0, 0, 0], 1, 0, 0⟩)⟩]
    (by
      simp only [List.forall_mem_cons, List.not_mem_nil, false_implies, implies_true, and_true]
      refine ⟨⟨by decide, Or.inr (by decide), fun h => ?_⟩,
        ⟨by decide, Or.inr (by decide), fun _ => Nat.le_refl 3⟩,
        ⟨by decide, Or.inr (by decide), fun h => ?_⟩⟩
      · exact absurd h (by decide)
      · exact absurd h (by decide))
    105 (Or.inr (by decide))
  exact ⟨by decide +kernel, Option.isNone_iff_eq_none.mp (by decide +kernel), hget, hpeek⟩

end Supercache
