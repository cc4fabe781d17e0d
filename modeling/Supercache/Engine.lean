import Supercache.Ops

/-!
A keyspace of the engine: its store and the last version issued for each key.
Minting a version takes the version lock for the whole of it, so it is one
step; it looks at the store on the way. When too many keys are tracked the
counters are pruned, in the order the map happens to be walked.
-/
namespace Supercache

open Wire Lru

structure KsRuntime where
  store : Mem
  lastVer : ByteMap.Map ℕ
  /-- No limit when zero or less. -/
  maxVersionKeys : ℤ

def expireAt (now ttl : ℤ) : ℤ := if ttl ≤ 0 then 0 else now + ttl

structure Walk where
  missing : List Bytes
  extra : List Bytes

def noWalk : Walk := ⟨[], []⟩

def emptyKeySpace : KsRuntime := ⟨Memory.newMemory 0 0, ∅, 100⟩

structure Owner.Turn (W : Type) where
  who : W
  now : ℤ
  walk : Walk

structure Replica.Arrival where
  now : ℤ
  walk : Walk
  ent : Entry

namespace KsRuntime

def tracked (ks : KsRuntime) (key : Bytes) : ℕ := (ks.lastVer[key]?).getD 0

def overTracked (ks : KsRuntime) : Bool := ks.maxVersionKeys < ks.lastVer.size

def pruneMissing (now : ℤ) : List Bytes → KsRuntime → KsRuntime
  | [], ks => ks
  | k :: rest, ks =>
    if !ks.overTracked then ks
    else if ks.lastVer.contains k then
      let (store, found) := ks.store.perform now k (Store.peek k)
      let lastVer := if found.isSome then ks.lastVer else ks.lastVer.erase k
      pruneMissing now rest { ks with store := store, lastVer := lastVer }
    else pruneMissing now rest ks

def pruneExtra : List Bytes → KsRuntime → KsRuntime
  | [], ks => ks
  | k :: rest, ks =>
    if !ks.overTracked then ks else pruneExtra rest { ks with lastVer := ks.lastVer.erase k }

def pruneLastVer (now : ℤ) (walk : Walk) (ks : KsRuntime) : KsRuntime :=
  if ks.maxVersionKeys ≤ 0 ∨ !ks.overTracked then ks
  else (ks.pruneMissing now walk.missing).pruneExtra walk.extra

def nextVersion (now : ℤ) (walk : Walk) (key : Bytes) (atLeast : ℕ) (ks : KsRuntime) :
    KsRuntime × ℕ :=
  let (store, ver) := ks.store.perform now key Store.peekVersion
  let n := bump (max (max (ks.tracked key) atLeast) (ver.getD 0))
  let ks := { ks with store := store, lastVer := ks.lastVer.insert key n }
  (ks.pruneLastVer now walk, n)

def observeVersion (now : ℤ) (walk : Walk) (key : Bytes) (version : ℕ) (ks : KsRuntime) :
    KsRuntime :=
  let lastVer :=
    if ks.tracked key < version then ks.lastVer.insert key version else ks.lastVer
  { ks with lastVer := lastVer }.pruneLastVer now walk

end KsRuntime

/-- What looking at an item leaves of it: the item, the item with its cached
value written out, or nothing if it has expired. -/
inductive Looks (now : ℤ) : Option LruItem → Option LruItem → Prop
  | same (old : Option LruItem) : Looks now old old
  | flushed (it : LruItem) : Looks now (some it) (some it.flush.1)
  | expired (it : LruItem) (h : it.entry.expired now = true) : Looks now (some it) none

def Looking {ρ : Type} (v : Verb LruItem ρ) : Prop :=
  ∀ env old, (v env old).act.evicts = false ∧ Looks env.now old ((v env old).act.result old)

section Looking

open Store

theorem looking_peek (key : Bytes) : Looking (Store.peek key : Verb LruItem _) := by
  intro env old
  cases old with
  | none => exact ⟨rfl, .same none⟩
  | some it =>
    simp only [Store.peek]
    by_cases hx : (entry it).expired env.now
    · rw [if_pos hx]
      exact ⟨rfl, .expired it hx⟩
    · rw [if_neg hx]
      refine ⟨evicts_touch key it false, ?_⟩
      simp only [result_touch]
      exact .flushed it

theorem looking_get (key : Bytes) : Looking (Store.get key : Verb LruItem _) := by
  intro env old
  cases old with
  | none => exact ⟨rfl, .same none⟩
  | some it =>
    simp only [Store.get]
    by_cases hx : (entry it).expired env.now
    · rw [if_pos hx]
      exact ⟨rfl, .expired it hx⟩
    · rw [if_neg hx]
      split
      · exact ⟨rfl, .same _⟩
      · refine ⟨evicts_touch key it true, ?_⟩
        simp only [result_touch]
        exact .flushed it

theorem looking_peekVersion : Looking (Store.peekVersion : Verb LruItem _) := by
  intro env old
  cases old with
  | none => exact ⟨rfl, .same none⟩
  | some it =>
    simp only [Store.peekVersion]
    by_cases hx : (entry it).expired env.now
    · rw [if_pos hx]
      exact ⟨rfl, .expired it hx⟩
    · rw [if_neg hx]
      exact ⟨rfl, .same _⟩

/-- After a look at one key, every key holds what it held, up to flushing and expiry. -/
theorem Looking.lookup {ρ : Type} {v : Verb LruItem ρ} (hv : Looking v) (m : Mem) (now : ℤ)
    (key k : Bytes) : Looks now (m.lookup k) ((m.perform now key v).1.lookup k) := by
  obtain ⟨hev, hlooks⟩ := hv (m.env now) (m.lookup key)
  rw [m.lookup_perform_of_not_evicts hev]
  unfold Memory.expected
  by_cases hk : k = key
  · rw [if_pos hk]
    rw [hk]
    exact hlooks
  · rw [if_neg hk]
    exact .same _

end Looking

section Prune

variable {P : KsRuntime → Prop} {now : ℤ} (ks : KsRuntime) (walk : Walk)
  (hlook : ∀ ks key, P ks → P { ks with store := (ks.store.perform now key (Store.peek key)).1 })
  (hdrop : ∀ ks key, P ks → P { ks with lastVer := ks.lastVer.erase key })

include hlook hdrop in
theorem KsRuntime.pruneMissing_rule (keys : List Bytes) (h : P ks) :
    P (ks.pruneMissing now keys) := by
  induction keys generalizing ks with
  | nil => exact h
  | cons key rest ih =>
    unfold KsRuntime.pruneMissing
    split
    · exact h
    · split
      · have hlooked := hlook ks key h
        generalize ks.store.perform now key (Store.peek key) = looked at hlooked ⊢
        refine ih _ ?_
        split
        · exact hlooked
        · exact hdrop _ key hlooked
      · exact ih ks h

include hdrop in
theorem KsRuntime.pruneExtra_rule (keys : List Bytes) (h : P ks) : P (ks.pruneExtra keys) := by
  induction keys generalizing ks with
  | nil => exact h
  | cons key rest ih =>
    unfold KsRuntime.pruneExtra
    split
    · exact h
    · exact ih _ (hdrop ks key h)

include hlook hdrop in
/-- A prune keeps what looking at a key and dropping a counter keep. -/
theorem KsRuntime.pruneLastVer_rule (h : P ks) : P (ks.pruneLastVer now walk) := by
  unfold KsRuntime.pruneLastVer
  split
  · exact h
  · exact pruneExtra_rule _ hdrop _ (pruneMissing_rule ks hlook hdrop _ h)

end Prune

/-- A property of what a key holds that looking at the store keeps. -/
structure Tidy (now : ℤ) (Q : Option LruItem → Prop) : Prop where
  flush : ∀ it, Q (some it) → Q (some it.flush.1)
  expire : ∀ it : LruItem, it.entry.expired now = true → Q (some it) → Q none

namespace Tidy

variable {now : ℤ} {Q : Option LruItem → Prop} (h : Tidy now Q) {k : Bytes}
include h

theorem looks {old new : Option LruItem} (hlooks : Looks now old new) (hQ : Q old) : Q new := by
  cases hlooks with
  | same => exact hQ
  | flushed it => exact h.flush it hQ
  | expired it hx => exact h.expire it hx hQ

theorem pruneLastVer (walk : Walk) (ks : KsRuntime) (hQ : Q (ks.store.lookup k)) :
    Q ((ks.pruneLastVer now walk).store.lookup k) :=
  ks.pruneLastVer_rule walk
    (fun ks key => h.looks ((looking_peek key).lookup ks.store now key k)) (fun _ _ => id) hQ

theorem nextVersion (walk : Walk) (key : Bytes) (atLeast : ℕ) (ks : KsRuntime)
    (hQ : Q (ks.store.lookup k)) : Q ((ks.nextVersion now walk key atLeast).1.store.lookup k) := by
  refine h.pruneLastVer walk _ ?_
  exact h.looks (looking_peekVersion.lookup ks.store now key k) hQ

theorem observeVersion (walk : Walk) (key : Bytes) (version : ℕ) (ks : KsRuntime)
    (hQ : Q (ks.store.lookup k)) : Q ((ks.observeVersion now walk key version).store.lookup k) :=
  h.pruneLastVer walk _ hQ

end Tidy

section Limits

variable (now now' : ℤ) (walk : Walk) (key : Bytes) (version : ℕ) (ks : KsRuntime)

theorem env_pruneLastVer : (ks.pruneLastVer now walk).store.env now' = ks.store.env now' :=
  ks.pruneLastVer_rule (P := fun ks' => ks'.store.env now' = ks.store.env now') walk
    (fun ks' k => (ks'.store.perform_env now k (Store.peek k) now').trans) (fun _ _ => id) rfl

/-- Minting a version leaves the limits of the store alone. -/
theorem env_nextVersion :
    (ks.nextVersion now walk key version).1.store.env now' = ks.store.env now' :=
  (env_pruneLastVer now now' walk _).trans (ks.store.perform_env now key Store.peekVersion now')

theorem env_observeVersion :
    (ks.observeVersion now walk key version).store.env now' = ks.store.env now' :=
  env_pruneLastVer now now' walk _

end Limits

def storedVersion (now : ℤ) : Option LruItem → ℕ
  | none => 0
  | some it => if it.entry.expired now then 0 else it.entry.version

def KsRuntime.counter (ks : KsRuntime) (now : ℤ) (key : Bytes) : ℕ :=
  max (ks.tracked key) (storedVersion now (ks.store.lookup key))

theorem peekVersion_ret (m : Mem) (now : ℤ) (key : Bytes) :
    (m.perform now key Store.peekVersion).2.getD 0 = storedVersion now (m.lookup key) := by
  rw [Memory.perform_ret]
  cases m.lookup key with
  | none => rfl
  | some it =>
    cases hx : it.entry.expired now with
    | true =>
      rw [Store.peekVersion_of_expired (m.env now) it hx]
      simp [storedVersion, hx, Plan.drop]
    | false =>
      rw [Store.peekVersion_of_unexpired (m.env now) it hx]
      simp [storedVersion, hx, Plan.skip, entry]

theorem nextVersion_version (now : ℤ) (walk : Walk) (key : Bytes) (atLeast : ℕ) (ks : KsRuntime) :
    (ks.nextVersion now walk key atLeast).2 = bump (max (ks.counter now key) atLeast) := by
  simp only [KsRuntime.nextVersion, KsRuntime.counter, peekVersion_ret]
  congr 1
  omega

theorem bump_of_lt {v : ℕ} (h : v + 1 < 2 ^ 64) : bump v = v + 1 := Nat.mod_eq_of_lt h

/-- Nothing newer than `bound` is stored. -/
def Below (bound : ℕ) (old : Option LruItem) : Prop :=
  ∀ it, old = some it → it.entry.version < bound

instance (bound : ℕ) (old : Option LruItem) : Decidable (Below bound old) :=
  decidable_of_iff (∀ it ∈ old, it.entry.version < bound) Iff.rfl

/-- A property of the flags, version and expiry alone. -/
theorem tidy_of_entry (now : ℤ) {P : Entry → Prop}
    (hP : ∀ e blob, P e → P { e with value := blob }) :
    Tidy now fun old => ∀ it, old = some it → P it.entry where
  flush := by
    intro it h it' heq
    obtain ⟨blob, hblob⟩ := it.entry_flush
    rw [Option.some.injEq] at heq
    rw [← heq, hblob]
    exact hP it.entry blob (h it rfl)
  expire := fun _ _ _ _ heq => absurd heq (by simp)

theorem tidy_below (now : ℤ) (bound : ℕ) : Tidy now (Below bound) :=
  tidy_of_entry now (P := fun e => e.version < bound) fun _ _ h => h

/-- What looking at the version of a key leaves there has that version. -/
theorem version_of_peekVersion {m : Mem} {now : ℤ} {key : Bytes} {it : LruItem}
    (hit : (m.perform now key Store.peekVersion).1.lookup key = some it) :
    it.entry.version = storedVersion now (m.lookup key) := by
  rw [m.lookup_perform_of_not_evicts (looking_peekVersion _ _).1] at hit
  simp only [Memory.expected, if_true] at hit
  cases hlook : m.lookup key with
  | none => simp [hlook, Store.peekVersion, Plan.skip, Act.result] at hit
  | some it' =>
    rw [hlook] at hit
    cases hx : it'.entry.expired now with
    | true =>
      rw [Store.peekVersion_of_expired (m.env now) it' hx] at hit
      simp [Plan.drop, Act.result] at hit
    | false =>
      rw [Store.peekVersion_of_unexpired (m.env now) it' hx] at hit
      simp only [Plan.skip, Act.result, Option.some.injEq] at hit
      subst hit
      simp [storedVersion, hx]

/-- After a mint nothing is stored above what was stored unexpired before. -/
theorem below_mint (now : ℤ) (walk : Walk) (key : Bytes) (atLeast : ℕ) (ks : KsRuntime) :
    Below (storedVersion now (ks.store.lookup key) + 1)
      ((ks.nextVersion now walk key atLeast).1.store.lookup key) := by
  refine (tidy_below now _).pruneLastVer walk _ fun it hit => ?_
  rw [version_of_peekVersion hit]
  exact Nat.lt_succ_self _

/-- A minted version is above everything stored under its key, unless it wrapped. -/
theorem below_nextVersion {now : ℤ} {key : Bytes} {atLeast : ℕ} {ks : KsRuntime}
    (hroom : max (ks.counter now key) atLeast + 1 < 2 ^ 64) (walk : Walk) :
    Below (ks.nextVersion now walk key atLeast).2
      ((ks.nextVersion now walk key atLeast).1.store.lookup key) := by
  have hcounter : storedVersion now (ks.store.lookup key) ≤ ks.counter now key :=
    Nat.le_max_right ..
  rw [nextVersion_version, bump_of_lt hroom]
  intro it hit
  have hlt := below_mint now walk key atLeast ks it hit
  omega

end Supercache
