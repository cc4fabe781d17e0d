import Supercache.Cluster
import Supercache.DeletePush
import Supercache.Schedule

/-!
Copies made by reading through. A node that misses asks the owner of the key
and installs what the owner answers. What the owner has in its store carries
the time to live of the keyspace and a version; but a loaded value that it
could not keep is answered with an entry that has neither.
-/
namespace Supercache.ReadThrough

open Wire Lru LoadCalls Schedule

structure Response where
  found : Bool
  entry : Entry

/-- The peer server's `GetOrLoad`. Errors other than not-found are errors of the call. -/
def respond : Entry × Option Failure → Option Response
  | (ent, none) => some ⟨true, ent⟩
  | (ent, some .notFound) =>
    some ⟨false, if ent.isNegative || 0 < ent.version then ent else ⟨[], 0, 0, 0⟩⟩
  | (_, some _) => none

section Replica

variable (cfg : Config) (c : Cluster) (key : Bytes)

/-- `getViaCluster`, given what the owner answers if it is asked. -/
def getViaCluster (rpc : Option Response) (load : Load) (now : ℤ) (p : Pace) (ks : KsRuntime) :
    KsRuntime × Except Failure Bytes :=
  match (c.elsewhere key).filter (fun owner => owner.addr ≠ []), rpc with
  | some _, some res =>
    let storeLocal := c.holdsReplica cfg key
    if !res.found then
      let ks :=
        if !storeLocal then ks
        else if res.entry.isNegative || 0 < res.entry.version then
          { ks with store := (ks.store.perform now key (Store.acceptNegative key res.entry)).1 }
        else storeNegative cfg key p ks
      (ks, .error .notFound)
    else if res.entry.isNegative then
      let ks :=
        if !storeLocal then ks
        else { ks with store := (ks.store.perform now key (Store.acceptNegative key res.entry)).1 }
      (ks, .error .notFound)
    else
      let ks :=
        if !storeLocal then ks
        else { ks with store := (ks.store.perform now key (Store.acceptIfNewer key res.entry)).1 }
      (ks, .ok res.entry.value)
  | _, _ => loadThrough cfg key p load ks

/-- `fetchFromOwner`, given what the owner answers if it is asked. -/
def fetchFromOwner (rpc : Option Response) (now : ℤ) (ks : KsRuntime) :
    KsRuntime × Except Failure Bytes :=
  match (c.elsewhere key).filter (fun owner => owner.addr ≠ []), rpc with
  | some _, some res =>
    if !res.found || res.entry.isNegative then (ks, .error .notFound)
    else
      let ks :=
        if !c.holdsReplica cfg key then ks
        else { ks with store := (ks.store.perform now key (Store.acceptIfNewer key res.entry)).1 }
      (ks, .ok res.entry.value)
  | _, _ => (ks, .error .notFound)

end Replica

def Dated (e : Entry) : Prop := e.expireAt ≠ 0 ∧ 1 ≤ e.version

def PositiveDated (e : Entry) : Prop := e.isTombstone = true ∨ e.isNegative = true ∨ Dated e

def AllDated (ks : KsRuntime) : Prop := ∀ k it, ks.store.lookup k = some it → PositiveDated it.entry

/-- A call on a node. Puts have no time to live of their own. The last two make copies of what
another node answered. -/
inductive Call where
  | put (key value : Bytes) (mint apply peek again : ℤ) (walk : Walk)
  | delete (key : Bytes) (mint apply : ℤ) (walk : Walk)
  | get (key : Bytes) (load : Load) (t : Times)
  | forceLoad (key : Bytes) (load : Load) (p : Pace)
  | getOrLoad (key : Bytes) (load : Load) (t : Times) (reload last : ℤ)
  | applyPut (key : Bytes) (ent : Entry) (observe apply : ℤ) (walk : Walk)
  | applyDelete (key : Bytes) (version : ℕ) (observe apply : ℤ) (walk : Walk)
  | getViaCluster (c : Cluster) (key : Bytes) (rpc : Option Response) (load : Load) (now : ℤ)
      (p : Pace)
  | fetchFromOwner (c : Cluster) (key : Bytes) (rpc : Option Response) (now : ℤ)

def step (cfg : Config) (ks : KsRuntime) : Call → KsRuntime
  | .put key value mint apply peek again walk =>
    ([mint, apply, peek, again].foldl
      (fun s now => Owner.putLocalApply key value cfg.ttl now walk s.1 s.2) (ks, .start)).1
  | .delete key mint apply walk =>
    ([mint, apply].foldl
      (fun s now => DeletePush.deleteAsOwner key now walk s.1 s.2) (ks, .start)).1
  | .get key load t => (get cfg key load t ks).ks
  | .forceLoad key load p => (forceLoad cfg true key load p ks).1
  | .getOrLoad key load t reload last => (getOrLoadLocal cfg key load t reload last ks).1
  | .applyPut key ent observe apply walk =>
    let ks := ks.observeVersion observe walk key ent.version
    let verb := if ent.isNegative then Store.acceptNegative key ent else Store.acceptIfNewer key ent
    { ks with store := (ks.store.perform apply key verb).1 }
  | .applyDelete key version observe apply walk =>
    let ks := ks.observeVersion observe walk key version
    { ks with store := (ks.store.perform apply key (Store.deleteIfVersion key version)).1 }
  | .getViaCluster c key rpc load now p => (getViaCluster cfg c key rpc load now p ks).1
  | .fetchFromOwner c key rpc now => (fetchFromOwner cfg c key rpc now ks).1

/-- The clock is past its zero and the version that would be minted does not wrap. -/
def Mints (ks : KsRuntime) (key : Bytes) (now : ℤ) : Prop :=
  0 ≤ now ∧ ks.counter now key + 1 < 2 ^ 64

/-- The answer of another node brings no positive entry that is not dated. -/
def Response.Sound (res : Response) : Prop :=
  PositiveDated res.entry ∨ res.found = false ∧ res.entry.version = 0

def Sound (ks : KsRuntime) : Call → Prop
  | .put key _ mint _ _ _ _ => Mints ks key mint
  | .get key _ t => t.Ordered ∧ Mints ks key t.load.mint
  | .forceLoad key _ p => p.Ordered ∧ Mints ks key p.mint
  | .getOrLoad key _ t _ _ => t.Ordered ∧ Mints ks key t.load.mint
  | .applyPut _ ent _ _ _ => PositiveDated ent
  | .getViaCluster _ key rpc _ _ p =>
    p.look ≤ p.mint ∧ Mints ks key p.mint ∧ ∀ res ∈ rpc, res.Sound
  | .fetchFromOwner _ _ rpc _ => ∀ res ∈ rpc, res.Sound
  | .delete .. | .applyDelete .. => True

section Dated

variable {cfg : Config} {ks : KsRuntime} {key : Bytes} {now : ℤ}

theorem tidy_positiveDated (now : ℤ) : Tidy now fun old => ∀ it, old = some it →
    PositiveDated it.entry :=
  tidy_of_entry now (P := PositiveDated) fun _ _ h => h

theorem AllDated.get (h : AllDated ks) : AllDated (ks.get now key).1 :=
  fun k => (tidy_positiveDated now).looks (looks_get ks now key k) (h k)

theorem AllDated.peek (h : AllDated ks) : AllDated (ks.peek now key).1 :=
  fun k => (tidy_positiveDated now).looks (looks_peek ks now key k) (h k)

theorem AllDated.nextVersion (h : AllDated ks) (walk : Walk) (atLeast : ℕ) :
    AllDated (ks.nextVersion now walk key atLeast).1 :=
  fun k => (tidy_positiveDated now).nextVersion walk key atLeast ks (h k)

theorem AllDated.observeVersion (h : AllDated ks) (walk : Walk) (version : ℕ) :
    AllDated (ks.observeVersion now walk key version) :=
  fun k => (tidy_positiveDated now).observeVersion walk key version ks (h k)

/-- A verb that leaves the item or puts a dated entry in its place. -/
theorem AllDated.perform {ρ : Type} {v : Verb LruItem ρ} (h : AllDated ks)
    (hv : ∀ env old, (v env old).act.result old = old ∨
      ∃ it, (v env old).act.result old = some it ∧ PositiveDated it.entry) :
    AllDated { ks with store := (ks.store.perform now key v).1 } := by
  intro k it hit
  rcases ks.store.lookup_perform now key v k with heq | ⟨hnone, -⟩
  · have hit' : ks.store.expected now key v k = some it := heq.symm.trans hit
    unfold Memory.expected at hit'
    split at hit'
    · rcases hv (ks.store.env now) (ks.store.lookup key) with hsame | ⟨new, hnew, hdated⟩
      · exact h key it (hsame.symm.trans hit')
      · cases hnew.symm.trans hit'
        exact hdated
    · exact h k it hit'
  · cases hnone.symm.trans hit

variable {ent : Entry}

theorem AllDated.acceptIfNewer (h : AllDated ks) (hdated : PositiveDated ent) :
    AllDated { ks with store := (ks.store.perform now key (Store.acceptIfNewer key ent)).1 } := by
  refine h.perform fun env old => ?_
  rcases Store.acceptIfNewer_result env key ent old with hsame | hnew
  · exact Or.inl hsame
  · exact Or.inr ⟨_, hnew, hdated⟩

theorem AllDated.acceptNegative (h : AllDated ks) (hdated : PositiveDated ent) :
    AllDated { ks with store := (ks.store.perform now key (Store.acceptNegative key ent)).1 } := by
  refine h.perform fun env old => ?_
  rcases Store.acceptNegative_result env key ent old with hsame | ⟨it, hnew, hentry⟩
  · exact Or.inl hsame
  · have hentry' : it.entry = ent := hentry
    exact Or.inr ⟨it, hnew, hentry' ▸ hdated⟩

theorem AllDated.deleteIfVersion (h : AllDated ks) (version : ℕ) : AllDated { ks with
      store := (ks.store.perform now key (Store.deleteIfVersion key version)).1 } := by
  refine h.perform fun env old => ?_
  have htomb : PositiveDated (Store.tombstone env version) := Or.inl (by
    have hflag : (flagTombstone &&& flagTombstone != 0) = true := by decide
    exact hflag)
  unfold Store.deleteIfVersion
  cases old with
  | none => exact Or.inr ⟨_, rfl, htomb⟩
  | some it =>
    simp only
    split
    · exact Or.inl rfl
    · exact Or.inr ⟨_, rfl, htomb⟩

/-- What a put or a fill mints is dated. -/
theorem dated_minted (httl : 0 < cfg.ttl) {key : Bytes} (hmint : Mints ks key now) (walk : Walk)
    (value : Bytes) :
    Dated ⟨value, (ks.nextVersion now walk key 0).2, expireAt now cfg.ttl, 0⟩ := by
  obtain ⟨hnow, hwrap⟩ := hmint
  refine ⟨?_, ?_⟩
  · simp only [expireAt, if_neg (not_le.mpr httl)]
    omega
  · simp only [nextVersion_version, Nat.max_zero, bump_of_lt hwrap]
    omega

end Dated

section Calls

variable {cfg : Config} {ks : KsRuntime} {key : Bytes} {p : Pace} {t : Times}

theorem positiveDated_negativeEntry (ks : KsRuntime) :
    PositiveDated (negativeEntry cfg key p ks).2 := by
  have hflag : (flagNegative &&& flagNegative != 0) = true := by decide
  exact Or.inr (Or.inl hflag)

theorem AllDated.storeNegative (h : AllDated ks) : AllDated (storeNegative cfg key p ks) := by
  unfold LoadCalls.storeNegative
  split
  · exact h
  · simp only
    split
    · exact h.peek
    · exact (h.peek.nextVersion p.walk 0).acceptNegative (positiveDated_negativeEntry _)

theorem AllDated.writeFill (h : AllDated ks) {ent : Entry} (hdated : PositiveDated ent)
    (val : Bytes) :
    AllDated (writeFill key p val ks ent).1 := by
  simp only [LoadCalls.writeFill]
  split
  · exact h.acceptIfNewer hdated
  · split
    · exact (h.acceptIfNewer hdated).get
    · exact (h.acceptIfNewer hdated).get

def PutDated (s : KsRuntime × Owner.Put) : Prop :=
  AllDated s.1 ∧ s.2 ≠ .start ∧ ∀ ent, s.2 = .minted ent → PositiveDated ent

theorem putDated_section {s : KsRuntime × Owner.Put} (h : PutDated s) {value : Bytes} {ttl now : ℤ}
    {walk : Walk} : PutDated (Owner.putLocalApply key value ttl now walk s.1 s.2) := by
  obtain ⟨ks, state⟩ := s
  obtain ⟨hall, hstart, hdated⟩ := h
  cases state with
  | start => exact absurd rfl hstart
  | minted ent =>
    refine ⟨hall.acceptIfNewer (hdated ent rfl), ?_⟩
    simp only [Owner.putLocalApply]
    split <;> simp
  | rejected ent =>
    refine ⟨hall.peek, ?_⟩
    simp only [Owner.putLocalApply]
    split <;> simp
  | recheck ent => exact ⟨hall.peek, by simp [Owner.putLocalApply]⟩
  | finished ent failed => exact ⟨hall, by simp [Owner.putLocalApply]⟩

variable (h : AllDated ks)
include h

theorem allDated_fetchFromOwner (c : Cluster) {rpc : Option Response} {now : ℤ}
    (hrpc : ∀ res ∈ rpc, res.Sound) : AllDated (fetchFromOwner cfg c key rpc now ks).1 := by
  unfold fetchFromOwner
  cases (c.elsewhere key).filter fun owner => owner.addr ≠ [] with
  | none => exact h
  | some owner =>
    cases rpc with
    | none => exact h
    | some res =>
      by_cases hnone : (!res.found || res.entry.isNegative) = true
      · simp only [hnone, if_true]
        exact h
      · have hdated : PositiveDated res.entry := by
          rcases hrpc res rfl with hdated | ⟨hfound, -⟩
          · exact hdated
          · exact absurd (by simp [hfound]) hnone
        simp only [hnone]
        cases c.holdsReplica cfg key with
        | false => exact h
        | true => exact h.acceptIfNewer hdated

variable (httl : 0 < cfg.ttl)
include httl

theorem AllDated.loadThrough (hp : p.look ≤ p.mint) (hmint : Mints ks key p.mint)
    (load : Load) : AllDated (loadThrough cfg key p load ks).1 := by
  cases load with
  | refused => exact h
  | failed => exact h
  | notFound =>
    simp only [LoadCalls.loadThrough]
    split
    · exact h.storeNegative.get
    · exact h.storeNegative.get
  | value val =>
    simp only [LoadCalls.loadThrough]
    split
    · exact h
    · simp only [fill]
      split
      · exact h.get
      · have hmint' : Mints (ks.get p.look key).1 key p.mint := by
          rw [Mints, counter_get hp]
          exact hmint
        exact (h.get.nextVersion p.walk 0).writeFill
          (Or.inr (Or.inr (dated_minted httl hmint' p.walk val))) val

/-- A copy of a sound answer is dated. -/
theorem allDated_getViaCluster (c : Cluster) {rpc : Option Response} {now : ℤ}
    (hrpc : ∀ res ∈ rpc, res.Sound) (load : Load) (hp : p.look ≤ p.mint)
    (hmint : Mints ks key p.mint) :
    AllDated (getViaCluster cfg c key rpc load now p ks).1 := by
  have hload := h.loadThrough httl hp hmint load
  unfold getViaCluster
  cases (c.elsewhere key).filter fun owner => owner.addr ≠ [] with
  | none => exact hload
  | some owner =>
    cases rpc with
    | none => exact hload
    | some res =>
      cases c.holdsReplica cfg key with
      | false =>
        simp only [Bool.not_false, if_true]
        split
        · exact h
        · split <;> exact h
      | true =>
        simp only [Bool.not_true, Bool.false_eq_true, if_false]
        rcases hrpc res rfl with hdated | ⟨hfound, hversion⟩
        · split
          · split
            · exact h.acceptNegative hdated
            · exact h.storeNegative
          · split
            · exact h.acceptNegative hdated
            · exact h.acceptIfNewer hdated
        · -- a bare not-found answer installs at most a negative entry
          simp only [hfound, hversion, Bool.not_false, if_true, Nat.lt_irrefl, decide_false,
            Bool.or_false]
          cases hneg : res.entry.isNegative with
          | true => exact h.acceptNegative (Or.inr (Or.inl hneg))
          | false => exact h.storeNegative

section

variable (ht : t.Ordered) (hmint : Mints ks key t.load.mint)
include ht hmint

/-- The load of a read that has looked twice. -/
theorem AllDated.load (load : Load) : AllDated (LoadCalls.loadThrough cfg key t.load load
      ((ks.get t.first key).1.get t.flight key).1).1 := by
  obtain ⟨hfirst, hflight, hlook, -⟩ := ht
  refine h.get.get.loadThrough httl hlook ?_ load
  rw [Mints, counter_get (hflight.trans hlook),
    counter_get ((hfirst.trans hflight).trans hlook)]
  exact hmint

theorem allDated_get (load : Load) : AllDated (get cfg key load t ks).ks := by
  unfold LoadCalls.get
  split
  · exact h
  · simp only
    split
    · exact h.get
    · split
      · exact h.get.get
      · exact AllDated.load h httl ht hmint load

theorem allDated_getOrLoadLocal (load : Load) (reload last : ℤ) :
    AllDated (getOrLoadLocal cfg key load t reload last ks).1 := by
  have hload := AllDated.load h httl ht hmint load
  unfold getOrLoadLocal
  split
  · exact h
  · simp only
    split
    · exact h.get
    · split
      · exact h.get.get
      · split
        next heq =>
          rw [heq] at hload
          split <;> exact hload.get
        next heq =>
          rw [heq] at hload
          split
          · exact hload.get
          · split <;> exact hload.get.get
        next heq =>
          rw [heq] at hload
          exact hload

end

theorem allDated_put {mint : ℤ} (hmint : Mints ks key mint) (value : Bytes)
    (apply peek again : ℤ) (walk : Walk) : AllDated ([mint, apply, peek, again].foldl
      (fun s now => Owner.putLocalApply key value cfg.ttl now walk s.1 s.2) (ks, .start)).1 := by
  have hstart : PutDated (Owner.putLocalApply key value cfg.ttl mint walk ks .start) := by
    refine ⟨h.nextVersion walk 0, by simp [Owner.putLocalApply], fun ent hent => ?_⟩
    simp only [Owner.putLocalApply, Owner.Put.minted.injEq] at hent
    exact hent ▸ Or.inr (Or.inr (dated_minted httl hmint walk value))
  exact (putDated_section (putDated_section (putDated_section hstart))).1

/-- No call of the owner stores a positive entry that is not dated. -/
theorem allDated_step {call : Call} (hsound : Sound ks call) :
    AllDated (step cfg ks call) := by
  cases call with
  | put key value mint apply peek again walk =>
    exact allDated_put h httl hsound value apply peek again walk
  | delete key mint apply walk => exact (h.nextVersion walk 0).deleteIfVersion _
  | get key load t => exact allDated_get h httl hsound.1 hsound.2 load
  | forceLoad key load p =>
    simp only [step, forceLoad]
    split
    · exact h
    · exact AllDated.loadThrough h httl hsound.1.1 hsound.2 load
  | getOrLoad key load t reload last =>
    exact allDated_getOrLoadLocal h httl hsound.1 hsound.2 load reload last
  | applyPut key ent observe apply walk =>
    simp only [step]
    split
    · exact (h.observeVersion walk _).acceptNegative hsound
    · exact (h.observeVersion walk _).acceptIfNewer hsound
  | applyDelete key version observe apply walk =>
    exact (h.observeVersion walk _).deleteIfVersion version
  | getViaCluster c key rpc load now p =>
    obtain ⟨hlook, hmint, hrpc⟩ := hsound
    exact allDated_getViaCluster h httl c hrpc load hlook hmint
  | fetchFromOwner c key rpc now => exact allDated_fetchFromOwner h c hsound

end Calls

section Statement

variable (cfg : Config) (key : Bytes) (t : Times) (reload : ℤ)

def writes (val : Bytes) (ks : KsRuntime) : KsRuntime × Entry :=
  fillEntry cfg key t.load val
    (((ks.get t.first key).1.get t.flight key).1.get t.load.look key).1

/-- A loaded value gets a version, fits into the store, is not evicted at once, and has not expired
when the owner looks for it again. -/
def Keeps (val : Bytes) (ks : KsRuntime) : Prop :=
  ks.counter t.load.mint key + 1 < 2 ^ 64 ∧
    Store.tooBig (ks.store.env t.load.apply) (key.length + (val.length + 64)) = false ∧
    Room (writes cfg key t val ks).1.store t.load.apply key (writes cfg key t val ks).2 ∧
    reload < t.load.mint + cfg.ttl

/-- A value that the owner finds at its first look is dated. -/
def ServesDated (ks : KsRuntime) : Prop :=
  cfg.checkKey key = .ok () → ∀ e, (ks.get t.first key).2 = some e → e.isNegative = false → Dated e

/-- If the owner misses and loads a value, it keeps it. -/
def KeepsLoaded (load : Load) (ks : KsRuntime) : Prop :=
  ∀ val, load = .value val → cfg.checkKey key = .ok () → cfg.validateValueSize val = .ok () →
    (ks.get t.first key).2 = none → Keeps cfg key t reload val ks

end Statement

section Answer

variable {cfg : Config} {key val : Bytes} {t : Times} {reload last : ℤ} {ks : KsRuntime}

/-- The answer after a load that returned a value. -/
theorem answer_loaded (hkey : cfg.checkKey key = .ok ())
    (hsize : cfg.validateValueSize val = .ok ())
    (hmiss : (ks.get t.first key).2 = none) :
    let w := writes cfg key t val ks
    let after := writeFill key t.load val w.1 w.2
    (getOrLoadLocal cfg key (.value val) t reload last ks).2 =
      ((positive (after.1.get reload key).2).getD ⟨after.2, 0, 0, 0⟩, none) := by
  intro w after
  have hlook : positive (((ks.get t.first key).1.get t.flight key).1.get t.load.look key).2 =
      none := by
    rw [get_of_missing (missing_flight hmiss t.flight)]
    rfl
  have hfill : loadThrough cfg key t.load (.value val)
      ((ks.get t.first key).1.get t.flight key).1 = (after.1, .ok after.2) := by
    simp only [loadThrough, hsize, fill, hlook]
    rfl
  simp only [getOrLoadLocal, hkey, hmiss, get_of_missing (missing_of_get hmiss), hfill]
  cases positive (after.1.get reload key).2 <;> rfl

theorem counter_writes (ht : t.Ordered) :
    (((ks.get t.first key).1.get t.flight key).1.get t.load.look key).1.counter t.load.mint key =
      ks.counter t.load.mint key := by
  rw [counter_get ht.2.2.1, counter_flight ht]

theorem env_writes (now : ℤ) : (writes cfg key t val ks).1.store.env now = ks.store.env now := by
  rw [writes, fillEntry, env_nextVersion, env_get, env_get, env_get]

/-- The version a fill mints is at least one unless it wraps. -/
theorem version_writes (ht : t.Ordered) (hver : ks.counter t.load.mint key < 2 ^ 64) :
    1 ≤ (writes cfg key t val ks).2.version ↔ ks.counter t.load.mint key + 1 < 2 ^ 64 := by
  simp only [writes, fillEntry, nextVersion_version, counter_writes ht, Nat.max_zero, bump]
  rcases Nat.lt_or_ge (ks.counter t.load.mint key + 1) (2 ^ 64) with hlt | hge
  · rw [Nat.mod_eq_of_lt hlt]
    omega
  · have heq : ks.counter t.load.mint key + 1 = 2 ^ 64 := by omega
    rw [heq, Nat.mod_self]
    omega

theorem expireAt_writes (httl : 0 < cfg.ttl) :
    (writes cfg key t val ks).2.expireAt = t.load.mint + cfg.ttl :=
  if_neg (not_le.mpr httl)

section Loaded

variable (httl : 0 < cfg.ttl) (ht : t.Ordered) (hclock : 0 ≤ t.load.mint)
  (hver : ks.counter t.load.mint key < 2 ^ 64) (hkey : cfg.checkKey key = .ok ())
  (hsize : cfg.validateValueSize val = .ok ()) (hmiss : (ks.get t.first key).2 = none)
include httl ht hclock hver hkey hsize hmiss

/-- The answer after a load is dated exactly if the owner keeps the value. -/
theorem loaded_dated_iff (reload last : ℤ) :
    ∃ ent, (getOrLoadLocal cfg key (.value val) t reload last ks).2 = (ent, none) ∧
      ent.flags = 0 ∧ (Dated ent ↔ Keeps cfg key t reload val ks) := by
  rw [answer_loaded hkey hsize hmiss]
  refine ⟨_, rfl, ?_⟩
  have hlack : Lacking ((writes cfg key t val ks).1.store.lookup key) :=
    (tidy_lacking t.load.mint).nextVersion t.load.walk key 0 _
      ((tidy_lacking t.load.look).looks (looks_get _ t.load.look key key)
        (missing_flight hmiss t.flight).lacking)
  have hout : Outdated (writes cfg key t val ks).1.store t.load.apply key
      (writes cfg key t val ks).2 ↔ _ :=
    outdated_mint_iff ht.2.2.2.1 (by rwa [counter_writes ht]) t.load.walk rfl
  rw [counter_writes ht] at hout
  have hcost : entryCost key (writes cfg key t val ks).2 = key.length + (val.length + 64) := rfl
  by_cases hkept : ¬ Outdated (writes cfg key t val ks).1.store t.load.apply key
      (writes cfg key t val ks).2 ∧
    Store.tooBig ((writes cfg key t val ks).1.store.env t.load.apply)
      (entryCost key (writes cfg key t val ks).2) = false ∧
    Room (writes cfg key t val ks).1.store t.load.apply key (writes cfg key t val ks).2
  · obtain ⟨hstale, hfits, hroom⟩ := hkept
    have hstored : (writeFill key t.load val (writes cfg key t val ks).1
        (writes cfg key t val ks).2).1.store.lookup key = some (LruItem.new _) :=
      (writeFill_stored hstale hfits hroom).1
    have hflag : ∀ flag, (writes cfg key t val ks).2.has flag = false := by
      simp [writes, fillEntry, Entry.has]
    have hget : ((writeFill key t.load val (writes cfg key t val ks).1
        (writes cfg key t val ks).2).1.get reload key).2 = _ :=
      get_of_holds (hstored ▸ holds_new _) (hflag _)
    rw [env_writes, hcost] at hfits
    cases hx : (writes cfg key t val ks).2.expired reload with
    | true =>
      rw [hx] at hget
      rw [hget]
      refine ⟨rfl, iff_of_false (fun h => absurd h.1 (by simp [positive])) fun h => ?_⟩
      have hlate := h.2.2.2
      simp only [Entry.expired, expireAt_writes httl, Bool.and_eq_true, decide_eq_true_eq] at hx
      omega
    | false =>
      rw [hx] at hget
      have hpos : positive (some (writes cfg key t val ks).2) =
          some (writes cfg key t val ks).2 := positive_eq_some.mpr ⟨rfl, hflag _⟩
      rw [hget]
      simp only [Bool.false_eq_true, if_false, hpos, Option.getD_some]
      refine ⟨rfl, ?_⟩
      simp only [Entry.expired, expireAt_writes httl, Bool.and_eq_false_iff,
        decide_eq_false_iff_not] at hx
      unfold Dated Keeps
      rw [version_writes ht hver, expireAt_writes httl]
      refine ⟨fun h => ⟨h.2, hfits, hroom, by omega⟩, fun h => ⟨by omega, h.1⟩⟩
  · rw [get_of_lacking (writeFill_lost hlack hkept)]
    refine ⟨rfl, iff_of_false (fun h => absurd h.1 (by simp)) fun h => hkept ?_⟩
    obtain ⟨hwrap, hfits, hroom, -⟩ := h
    refine ⟨fun hstale => ?_, by rw [env_writes, hcost]; exact hfits, hroom⟩
    have hend := (hout.mp hstale).1
    omega

end Loaded

variable {load : Load} {ent : Entry}

/-- An answer with an error comes with a negative entry or with none. -/
theorem answer_error {err : Failure}
    (h : (getOrLoadLocal cfg key load t reload last ks).2 = (ent, some err)) :
    ent.isNegative = true ∨ ent = ⟨[], 0, 0, 0⟩ := by
  have hneg : ∀ {cur : Option Entry} {e : Entry}, negative cur = some e → e.isNegative = true := by
    intro cur e hcur
    exact (Option.filter_eq_some_iff.mp hcur).2
  unfold getOrLoadLocal at h
  split at h
  · cases h
    exact Or.inr rfl
  · simp only at h
    split at h
    next e _ =>
      cases hn : e.isNegative with
      | true =>
        rw [hn] at h
        cases h
        exact Or.inl hn
      | false => simp [hn] at h
    · split at h
      next e _ =>
        cases hn : e.isNegative with
        | true =>
          rw [hn] at h
          cases h
          exact Or.inl hn
        | false => simp [hn] at h
      · split at h
        · split at h <;> cases h
        · split at h
          next hcur =>
            cases h
            exact Or.inl (hneg hcur)
          · split at h
            next hcur =>
              cases h
              exact Or.inl (hneg hcur)
            · cases h
              exact Or.inr rfl
        · cases h
          exact Or.inr rfl

/-- Only a load that returned a value is answered with anything but what the store holds. -/
theorem answer_stored (hkey : cfg.checkKey key = .ok ())
    (hload : ∀ val, load = .value val → cfg.validateValueSize val ≠ .ok ())
    (hmiss : (ks.get t.first key).2 = none) :
    (getOrLoadLocal cfg key load t reload last ks).2 ≠ (ent, none) := by
  have hflight : ((ks.get t.first key).1.get t.flight key).2 = none :=
    get_of_missing (missing_of_get hmiss)
  have herr : ∃ ks' err, loadThrough cfg key t.load load
      ((ks.get t.first key).1.get t.flight key).1 = (ks', .error err) := by
    cases load with
    | refused => exact ⟨_, _, rfl⟩
    | failed => exact ⟨_, _, rfl⟩
    | notFound =>
      have hlack := (missing_flight hmiss t.flight).lacking
      refine ⟨_, .notFound, Prod.ext rfl ?_⟩
      simp only [loadThrough, get_of_lacking (lacking_storeNegative hlack)]
    | value val =>
      cases hsize : cfg.validateValueSize val with
      | ok => exact absurd hsize (hload val rfl)
      | error err =>
        exact ⟨((ks.get t.first key).1.get t.flight key).1, err, by simp only [loadThrough, hsize]⟩
  obtain ⟨ks', err, hpair⟩ := herr
  intro h
  simp only [getOrLoadLocal, hkey, hmiss, hflight, hpair] at h
  cases err with
  | notFound =>
    simp only at h
    split at h
    · cases h
    · split at h <;> cases h
  | invalidArgument => cases h
  | keyTooLarge => cases h
  | valueTooLarge => cases h
  | unavailable => cases h
  | source => cases h

theorem servesDated_of_allDated (h : AllDated ks) : ServesDated cfg key t ks := by
  intro _ e hcur hn
  obtain ⟨-, htomb, it, hit, hentry, -⟩ := holds_of_get hcur
  have hdated : PositiveDated e := hentry ▸ h.get key it hit
  exact (hdated.resolve_left (by simp [htomb])).resolve_left (by simp [hn])

/-- What is found at the first look is answered as it is. -/
theorem answer_hit (hkey : cfg.checkKey key = .ok ()) {e : Entry}
    (hcur : (ks.get t.first key).2 = some e) (hn : e.isNegative = false) :
    (getOrLoadLocal cfg key load t reload last ks).2 = (e, none) := by
  simp only [getOrLoadLocal, hkey, hcur, hn, Bool.false_eq_true, if_false]

/-- What the owner answers is dated. -/
theorem answer_dated (httl : 0 < cfg.ttl) (ht : t.Ordered)
    (hclock : 0 ≤ t.load.mint) (hver : ks.counter t.load.mint key < 2 ^ 64)
    (hserves : ServesDated cfg key t ks) (hkeeps : KeepsLoaded cfg key t reload load ks)
    (h : (getOrLoadLocal cfg key load t reload last ks).2 = (ent, none)) : Dated ent := by
  cases hkey : cfg.checkKey key with
  | error err =>
    simp only [getOrLoadLocal, hkey] at h
    cases h
  | ok =>
    cases hcur : (ks.get t.first key).2 with
    | some e =>
      cases hn : e.isNegative with
      | true =>
        simp only [getOrLoadLocal, hkey, hcur, hn, if_true] at h
        cases h
      | false =>
        cases (answer_hit hkey hcur hn).symm.trans h
        exact hserves hkey _ hcur hn
    | none =>
      by_cases hload : ∀ val, load = .value val → cfg.validateValueSize val ≠ .ok ()
      · exact absurd h (answer_stored hkey hload hcur)
      · push Not at hload
        obtain ⟨val, rfl, hsize⟩ := hload
        obtain ⟨ent', hent', -, hdated⟩ :=
          loaded_dated_iff httl ht hclock hver hkey hsize hcur reload last
        cases hent'.symm.trans h
        exact hdated.mpr (hkeeps val rfl hkey hsize hcur)

/-- If the owner serves something that is not dated, or does not keep what it loads, then its
answer is not dated. -/
theorem answer_undated (httl : 0 < cfg.ttl) (ht : t.Ordered)
    (hclock : 0 ≤ t.load.mint) (hver : ks.counter t.load.mint key < 2 ^ 64) (reload last : ℤ)
    (h : ¬ (ServesDated cfg key t ks ∧ KeepsLoaded cfg key t reload load ks)) :
    ∃ ent, (getOrLoadLocal cfg key load t reload last ks).2 = (ent, none) ∧
      ent.isNegative = false ∧ ¬ Dated ent := by
  by_cases hserves : ServesDated cfg key t ks
  · have hlost : ¬ KeepsLoaded cfg key t reload load ks := fun hkeeps => h ⟨hserves, hkeeps⟩
    unfold KeepsLoaded at hlost
    push Not at hlost
    obtain ⟨val, rfl, hkey, hsize, hmiss, hlost⟩ := hlost
    obtain ⟨ent, hent, hflags, hdated⟩ :=
      loaded_dated_iff httl ht hclock hver hkey hsize hmiss reload last
    exact ⟨ent, hent, by simp [Entry.isNegative, Entry.has, hflags], fun h => hlost (hdated.mp h)⟩
  · unfold ServesDated at hserves
    push Not at hserves
    obtain ⟨hkey, e, hcur, hn, hundated⟩ := hserves
    exact ⟨e, answer_hit hkey hcur hn, hn, hundated⟩

end Answer

section Replica

variable {cfg : Config} {c : Cluster} {key : Bytes} {ks : KsRuntime}
    {answer : Entry × Option Failure}
  {res : Response}

/-- The replica asks the owner and gets an answer. -/
def Asks (c : Cluster) (key : Bytes) (answer : Entry × Option Failure) (res : Response) : Prop :=
  ((c.elsewhere key).filter fun owner => owner.addr ≠ []).isSome = true ∧ respond answer = some res

variable {ent : Entry} {now : ℤ} {it : LruItem}

/-- An answer carries an entry or says that there is none. -/
theorem respond_cases {err : Option Failure} (h : respond (ent, err) = some res) :
    err = none ∧ res = ⟨true, ent⟩ ∨ err = some .notFound ∧ res =
      ⟨false, if ent.isNegative || 0 < ent.version then ent else ⟨[], 0, 0, 0⟩⟩ := by
  cases err with
  | none => exact Or.inl ⟨rfl, (Option.some.inj h).symm⟩
  | some err =>
    cases err <;> first | exact Or.inr ⟨rfl, (Option.some.inj h).symm⟩ | cases h

theorem installed_acceptIfNewer (hmiss : Missing (ks.store.lookup key))
    (hit : (ks.store.perform now key (Store.acceptIfNewer key ent)).1.lookup key = some it)
    (ht : it.entry.isTombstone = false) : it.entry = ent := by
  rcases ks.store.lookup_perform now key (Store.acceptIfNewer key ent) key with heq | ⟨hnone, -⟩
  · have hit' := heq.symm.trans hit
    simp only [Memory.expected, if_true] at hit'
    rcases Store.acceptIfNewer_result (ks.store.env now) key ent (ks.store.lookup key) with
      hsame | hnew
    · rw [hmiss it (hsame.symm.trans hit')] at ht
      cases ht
    · cases hnew.symm.trans hit'
      rfl
  · cases hnone.symm.trans hit

theorem not_lacking (ht : it.entry.isTombstone = false) (hn : it.entry.isNegative = false) :
    ¬ Lacking (some it) := by
  intro hlack
  rcases hlack it rfl with h | h
  · rw [ht] at h
    cases h
  · rw [hn] at h
    cases h

section Installed

variable (hasks : Asks c key answer res) (hmiss : Missing (ks.store.lookup key))
include hasks hmiss

variable {now : ℤ} {it : LruItem}

/-- A positive entry that is there after a node asked the owner is the owner's answer. -/
theorem installed_getViaCluster
    (herr : ∀ ent err, answer = (ent, some err) → ent.isNegative = true ∨ ent = ⟨[], 0, 0, 0⟩)
    {load : Load} {p : Pace}
    (hit : (getViaCluster cfg c key (some res) load now p ks).1.store.lookup key = some it)
    (ht : it.entry.isTombstone = false) (hn : it.entry.isNegative = false) :
    answer = (it.entry, none) := by
  obtain ⟨hasked, hres⟩ := hasks
  obtain ⟨owner, howner⟩ := Option.isSome_iff_exists.mp hasked
  obtain ⟨ent, err⟩ := answer
  simp only [getViaCluster, howner] at hit
  rcases respond_cases hres with ⟨rfl, rfl⟩ | ⟨rfl, rfl⟩
  · simp only [Bool.not_true, Bool.false_eq_true, if_false] at hit
    cases hneg : ent.isNegative with
    | true =>
      simp only [hneg, if_true] at hit
      split at hit
      · exact absurd (hit ▸ hmiss.lacking) (not_lacking ht hn)
      · exact absurd (hit ▸ lacking_acceptNegative hneg hmiss.lacking) (not_lacking ht hn)
    | false =>
      simp only [hneg, Bool.false_eq_true, if_false] at hit
      split at hit
      · exact absurd (hit ▸ hmiss.lacking) (not_lacking ht hn)
      · rw [installed_acceptIfNewer hmiss hit ht]
  · -- a not-found answer leaves a negative entry at most
    refine absurd ?_ (not_lacking ht hn)
    simp only [Bool.not_false, if_true] at hit
    rw [← hit]
    split
    · exact hmiss.lacking
    · rcases herr ent .notFound rfl with hneg | rfl
      · simp only [hneg, Bool.true_or, if_true]
        exact lacking_acceptNegative hneg hmiss.lacking
      · exact lacking_storeNegative hmiss.lacking

theorem installed_fetchFromOwner
    (hit : (fetchFromOwner cfg c key (some res) now ks).1.store.lookup key = some it)
    (ht : it.entry.isTombstone = false) (hn : it.entry.isNegative = false) :
    answer = (it.entry, none) := by
  obtain ⟨hasked, hres⟩ := hasks
  obtain ⟨owner, howner⟩ := Option.isSome_iff_exists.mp hasked
  obtain ⟨ent, err⟩ := answer
  simp only [fetchFromOwner, howner] at hit
  by_cases hfound : (!res.found || res.entry.isNegative) = true
  · rw [if_pos hfound] at hit
    exact absurd (hit ▸ hmiss.lacking) (not_lacking ht hn)
  · rw [if_neg hfound] at hit
    simp only at hit
    split at hit
    · exact absurd (hit ▸ hmiss.lacking) (not_lacking ht hn)
    · rcases respond_cases hres with ⟨rfl, rfl⟩ | ⟨rfl, rfl⟩
      · rw [installed_acceptIfNewer hmiss hit ht]
      · simp at hfound

end Installed

structure Takes (cfg : Config) (c : Cluster) (key : Bytes) (ent : Entry) (now : ℤ)
    (ks : KsRuntime) : Prop where
  asked : ((c.elsewhere key).filter fun owner => owner.addr ≠ []).isSome = true
  holds : c.holdsReplica cfg key = true
  newer : ¬ Outdated ks.store now key ent
  fits : Store.tooBig (ks.store.env now) (entryCost key ent) = false
  room : Room ks.store now key ent

theorem lookup_of_takes (h : Takes cfg c key ent now ks) (hn : ent.isNegative = false) (load : Load)
    (p : Pace) : (getViaCluster cfg c key (some ⟨true, ent⟩) load now p ks).1.store.lookup key =
        some (LruItem.new ent) ∧
      (fetchFromOwner cfg c key (some ⟨true, ent⟩) now ks).1.store.lookup key =
        some (LruItem.new ent) := by
  obtain ⟨owner, howner⟩ := Option.isSome_iff_exists.mp h.asked
  have hact : (Store.acceptIfNewer key ent (ks.store.env now) (ks.store.lookup key)).act =
      Store.replace (ks.store.lookup key) (entryCost key ent) (fresh ent) := by
    rw [acceptIfNewer_of_not_outdated h.newer, Store.set, h.fits]
    rfl
  have hstored := (lookup_write_iff hact).mpr h.room
  simp only [getViaCluster, fetchFromOwner, howner, hn, h.holds, Bool.not_true, Bool.or_self,
    Bool.false_eq_true, if_false]
  exact ⟨hstored, hstored⟩

end Replica

/-- Whatever positive entry a replica that missed the key holds after it has asked the owner carries
a time to live and a version. -/
def InstallsDated (cfg : Config) (key : Bytes) (answer : Entry × Option Failure) : Prop :=
  ∀ (c : Cluster) (replica : KsRuntime) (res : Response) (load : Load) (now : ℤ) (p : Pace)
    (it : LruItem), Asks c key answer res → Missing (replica.store.lookup key) →
    (getViaCluster cfg c key (some res) load now p replica).1.store.lookup key = some it ∨
      (fetchFromOwner cfg c key (some res) now replica).1.store.lookup key = some it →
    it.entry.isTombstone = false → it.entry.isNegative = false → Dated it.entry

end Supercache.ReadThrough
