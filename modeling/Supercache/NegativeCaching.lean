import Supercache.LoadCalls
import Supercache.Schedule

/-!
How long a not-found answer keeps reads from the data source. Storing the
negative entry gives up when the key holds anything that is not negative, and a
tombstone is such a thing. So further reads are spared exactly when no tombstone
was in the way.
-/
namespace Supercache.NegativeCaching

open Wire Lru LoadCalls Schedule

section Statement

variable (cfg : Config) (key : Bytes)

structure Turn where
  key : Bytes
  load : Load
  times : Times

def step (ks : KsRuntime) (u : Turn) : KsRuntime := (get cfg u.key u.load u.times ks).ks

/-- The read starts at `start` or later and is over before the time `T`. -/
structure Within (start T : ℤ) (t : Times) : Prop where
  start : start ≤ t.first
  first : t.first < T
  flight : t.flight < T
  look : t.load.look < T
  mint : t.load.mint < T
  apply : t.load.apply < T
  again : t.load.again < T

/-- The read evicts nothing. -/
def Calm (ks : KsRuntime) (u : Turn) : Prop :=
  (step cfg ks u).store.cache.evictions = ks.store.cache.evictions

/-- If it is a read of the key, it returns not-found without asking the data source. -/
def Spared (ks : KsRuntime) (u : Turn) : Prop :=
  u.key = key → (get cfg u.key u.load u.times ks).result = .error .notFound ∧
    (get cfg u.key u.load u.times ks).called = false

def writes (t : Times) (ks : KsRuntime) : KsRuntime × Entry :=
  negativeEntry cfg key t.load
    ((((ks.get t.first key).1.get t.flight key).1.peek t.load.look key).1)

/-- The store has room for the negative entry. -/
def HasRoom (t : Times) (ks : KsRuntime) : Prop :=
  RoomFor ks t.load.apply key (writes cfg key t ks)

/-- The key holds a tombstone when the negative entry is to be stored, and it is not at the same
time a negative entry that the new one can replace. -/
def Blocked (t : Times) (ks : KsRuntime) : Prop :=
  Has (fun e => e.isTombstone = true ∧ e.expired t.load.look = false ∧
    (e.isNegative = false ∨
      ks.counter t.load.mint key + 1 = 2 ^ 64 ∧ e.expired t.load.apply = false))
    (ks.store.lookup key)

end Statement

/-- What a call on other keys does to a key before the time `T`: evictions are only ever added, and
unless there are some, it does no more to the key than looking at it. -/
structure Aside (T : ℤ) (k : Bytes) (ks ks' : KsRuntime) : Prop where
  evictions : ks.store.cache.evictions ≤ ks'.store.cache.evictions
  keeps : ks'.store.cache.evictions = ks.store.cache.evictions →
    ∀ Q, (∀ now < T, Tidy now Q) → Q (ks.store.lookup k) → Q (ks'.store.lookup k)

namespace Aside

variable {T : ℤ} {k key : Bytes} {ks ks' ks'' : KsRuntime} {now : ℤ}

theorem refl : Aside T k ks ks := ⟨le_rfl, fun _ _ _ h => h⟩

theorem trans (h : Aside T k ks ks') (h' : Aside T k ks' ks'') : Aside T k ks ks'' where
  evictions := h.evictions.trans h'.evictions
  keeps := by
    intro heq Q hQ hks
    have hle := h.evictions
    have hle' := h'.evictions
    exact h'.keeps (by omega) Q hQ (h.keeps (by omega) Q hQ hks)

theorem look {ρ : Type} {v : Verb LruItem ρ} (hv : Looking v) (hnow : now < T) (lastVer) :
    Aside T k ks { ks with store := (ks.store.perform now key v).1, lastVer := lastVer } where
  evictions := ks.store.evictions_perform_le now key v
  keeps := fun _ _ hQ hks => (hQ now hnow).looks (hv.lookup ks.store now key k) hks

section

variable (hnow : now < T)
include hnow

theorem get : Aside T k ks (ks.get now key).1 :=
  look (looking_get key) hnow ks.lastVer

theorem peek : Aside T k ks (ks.peek now key).1 :=
  look (looking_peek key) hnow ks.lastVer

theorem pruneLastVer (walk : Walk) : Aside T k ks (ks.pruneLastVer now walk) :=
  ks.pruneLastVer_rule walk (fun ks' key h => h.trans (look (looking_peek key) hnow ks'.lastVer))
    (fun _ _ h => ⟨h.evictions, h.keeps⟩) refl

theorem nextVersion (walk : Walk) (atLeast : ℕ) :
    Aside T k ks (ks.nextVersion now walk key atLeast).1 :=
  Aside.trans (look looking_peekVersion hnow _) (pruneLastVer hnow walk)

end

/-- A write to another key. -/
theorem write {ρ : Type} {v : Verb LruItem ρ} (hk : k ≠ key) :
    Aside T k ks { ks with store := (ks.store.perform now key v).1 } where
  evictions := ks.store.evictions_perform_le now key v
  keeps := by
    intro hcalm Q _ hks
    have hsame := ks.store.lookup_perform_of_evictions_eq hcalm k
    rw [Memory.expected, if_neg hk] at hsame
    rwa [hsame]

end Aside

section Others

variable {cfg : Config} {k key : Bytes} {T start : ℤ} {t : Times} {ks : KsRuntime}

variable (hk : k ≠ key)
include hk

variable (ht : Within start T t)
include ht

theorem aside_storeNegative :
    Aside T k ks (storeNegative cfg key t.load ks) := by
  unfold storeNegative
  split
  · exact Aside.refl
  · simp only [negativeEntry]
    split
    · exact Aside.peek ht.look
    · exact (Aside.peek ht.look).trans ((Aside.nextVersion ht.mint t.load.walk 0).trans
        (Aside.write hk))

theorem aside_writeFill (val : Bytes) (ent : Entry) :
    Aside T k ks (writeFill key t.load val ks ent).1 := by
  simp only [writeFill]
  split
  · exact Aside.write hk
  · split
    · exact (Aside.write hk).trans (Aside.get ht.again)
    · exact (Aside.write hk).trans (Aside.get ht.again)

theorem aside_fill (val : Bytes) :
    Aside T k ks (fill cfg key t.load val ks).1 := by
  simp only [fill, fillEntry]
  split
  · exact Aside.get ht.look
  · exact (Aside.get ht.look).trans ((Aside.nextVersion ht.mint t.load.walk 0).trans
      (aside_writeFill hk ht val _))

theorem aside_loadThrough (load : Load) :
    Aside T k ks (loadThrough cfg key t.load load ks).1 := by
  cases load with
  | refused => exact Aside.refl
  | failed => exact Aside.refl
  | notFound =>
    simp only [loadThrough]
    split
    · exact (aside_storeNegative hk ht).trans (Aside.get ht.again)
    · exact (aside_storeNegative hk ht).trans (Aside.get ht.again)
  | value val =>
    simp only [loadThrough]
    split
    · exact Aside.refl
    · exact aside_fill hk ht val

/-- A read of another key. -/
theorem aside_get (load : Load) :
    Aside T k ks (get cfg key load t ks).ks := by
  unfold LoadCalls.get
  split
  · exact Aside.refl
  · simp only
    split
    · exact Aside.get ht.first
    · split
      · exact (Aside.get ht.first).trans (Aside.get ht.flight)
      · exact (Aside.get ht.first).trans ((Aside.get ht.flight).trans
          (aside_loadThrough hk ht load))

end Others

/-- The key holds a negative entry that does not expire before the time `T`. -/
def Cached (T : ℤ) (key : Bytes) (ks : KsRuntime) : Prop :=
  ∃ ent, Holds ent (ks.store.lookup key) ∧ ent.isNegative = true ∧ ent.isTombstone = false ∧
    Entry.Lasts T ent.expireAt

section Run

variable {cfg : Config} {key : Bytes} {T start : ℤ} {ks : KsRuntime} {u : Turn}

/-- A read of the key is answered from the negative entry. -/
theorem spared_of_cached (hkey : cfg.checkKey key = .ok ()) (h : Cached T key ks)
    (hfirst : u.times.first < T) : Spared cfg key ks u := by
  obtain ⟨ent, hholds, hn, ht, hlasts⟩ := h
  rintro rfl
  have hhit : (ks.get u.times.first u.key).2 = some ent := by
    rw [get_of_holds hholds ht, Entry.expired_of_lasts hlasts hfirst]
    rfl
  rw [get_hit hkey hhit]
  exact ⟨by simp [answer, hn], rfl⟩

theorem cached_step (hkey : cfg.checkKey key = .ok ()) (h : Cached T key ks)
    (hu : Within start T u.times ∧ Calm cfg ks u) : Cached T key (step cfg ks u) := by
  obtain ⟨ent, hholds, hn, ht, hlasts⟩ := h
  have htidy : ∀ now < T, Tidy now (Holds ent) :=
    fun now hnow => tidy_holds (Entry.expired_of_lasts hlasts hnow)
  refine ⟨ent, ?_, hn, ht, hlasts⟩
  by_cases hk : key = u.key
  · subst hk
    have hhit : (ks.get u.times.first u.key).2 = some ent := by
      rw [get_of_holds hholds ht, Entry.expired_of_lasts hlasts hu.1.first]
      rfl
    rw [step, get_hit hkey hhit]
    exact (htidy _ hu.1.first).looks (looks_get ks _ _ _) hholds
  · exact (aside_get hk hu.1 u.load).keeps hu.2 _ htidy hholds

end Run

section Store

variable {cfg : Config} {key : Bytes} {t : Times} {ks : KsRuntime}

theorem of_called {load : Load} (h : (get cfg key load t ks).called = true) :
    cfg.checkKey key = .ok () ∧ (ks.get t.first key).2 = none := by
  cases hkey : cfg.checkKey key with
  | error err => simp [LoadCalls.get, hkey] at h
  | ok =>
    refine ⟨rfl, ?_⟩
    cases hcur : (ks.get t.first key).2 with
    | none => rfl
    | some e =>
      rw [get_hit hkey hcur] at h
      cases h

/-- What storing a negative entry finds when it looks. -/
theorem peek_spec (ks : KsRuntime) (now : ℤ) (key : Bytes) :
    (ks.peek now key).2 = ((ks.peek now key).1.store.lookup key).map LruItem.entry ∧
      ∀ it, (ks.peek now key).1.store.lookup key = some it → it.entry.expired now = false := by
  have hlook : (ks.peek now key).1.store.lookup key =
      (Store.peek key (ks.store.env now) (ks.store.lookup key)).act.result
        (ks.store.lookup key) := by
    refine (ks.store.lookup_perform_of_not_evicts (looking_peek key _ _).1 key).trans ?_
    simp [Memory.expected]
  have hret : (ks.peek now key).2 = (Store.peek key (ks.store.env now) (ks.store.lookup key)).ret
    ((ks.peek now key).1.store.lookup key).isSome := ks.store.perform_ret now key (Store.peek key)
  rw [hlook] at hret ⊢
  rw [hret]
  cases hold : ks.store.lookup key with
  | none => simp [Store.peek, Plan.skip, Act.result]
  | some it =>
    cases hx : it.entry.expired now with
    | true =>
      have hplan : Store.peek key (ks.store.env now) (some it) = .drop none := if_pos hx
      simp [hplan, Plan.drop, Act.result]
    | false =>
      rw [Store.peek_of_unexpired (ks.store.env now) it key hx]
      simp only [Store.result_touch, Option.map_some]
      refine ⟨rfl, fun it' hit => ?_⟩
      obtain ⟨blob, hblob⟩ := it.entry_flush
      cases hit
      rw [show (Stored.flush it).1.entry = _ from hblob]
      exact hx

theorem settled_of_flags {it : LruItem} (h : it.entry.flags = flagNegative) : it.Settled := by
  have hhas : ∀ flag, flagNegative &&& flag = 0 → it.entry.has flag = false := by
    intro flag hflag
    simp [Entry.has, h, hflag]
  exact ⟨setKind.pending_of_not_has (hhas _ (by decide)),
    zKind.pending_of_not_has (hhas _ (by decide)), gKind.pending_of_not_has (hhas _ (by decide)),
    lKind.pending_of_not_has (hhas _ (by decide)), hKind.pending_of_not_has (hhas _ (by decide)),
    it.json_settled (hhas _ (by decide))⟩

section Accept

variable {m : Mem} {now : ℤ} {e : Entry} (hmiss : Missing (m.lookup key))
include hmiss

/-- Over nothing or a tombstone a newer negative entry that has room is stored. -/
theorem holds_acceptNegative (hnew : ¬ Outdated m now key e)
    (hflags : e.flags = flagNegative) (hfits : Store.tooBig (m.env now) (entryCost key e) = false)
    (hroom : Room m now key e) :
    Holds e ((m.perform now key (Store.acceptNegative key e)).1.lookup key) := by
  cases hold : m.lookup key with
  | none =>
    have hact : (Store.acceptNegative key e (m.env now) (m.lookup key)).act =
        Store.replace (m.lookup key) (entryCost key e) (fresh e) := by
      rw [hold, Store.acceptNegative, hfits]
      rfl
    rw [(lookup_write_iff hact).mpr hroom]
    exact holds_new e
  | some it =>
    have ht : (Stored.entry it).isTombstone = true := hmiss it hold
    have hact : (Store.acceptNegative key e (m.env now) (m.lookup key)).act =
        .write (entryCost key e) { it with entry := e } Store.inPlace := by
      rw [hold]
      simp only [Store.acceptNegative, hfits, Bool.false_eq_true, if_false, ht, if_true]
      split
      · rfl
      · split
        next hx hle =>
          exact absurd ⟨it, hold, Bool.eq_false_iff.mpr hx, hle⟩ hnew
        · rfl
    have hfronts : Cache.Act.Fronts (m.cache.find key).isSome (entryCost key e)
        { it with entry := e } (Store.acceptNegative key e (m.env now) (m.lookup key)).act := by
      rw [hact]
      unfold Memory.lookup Cache.lookup at hold
      cases hfind : m.cache.find key with
      | none => simp [hfind] at hold
      | some n => exact .write false rfl
    have hstored : (m.perform now key (Store.acceptNegative key e)).1.lookup key =
        some { it with entry := e } :=
      (m.wf.lookup_exec_front_iff (fun it => it.entry.pinned now) hfronts).mpr hroom
    exact ⟨_, hstored, rfl, (settled_of_flags hflags).flush⟩

/-- An older one is not. -/
theorem missing_acceptNegative (hold : Outdated m now key e) :
    Missing ((m.perform now key (Store.acceptNegative key e)).1.lookup key) := by
  obtain ⟨it, hit, hx, hle⟩ := hold
  have ht : (Stored.entry it).isTombstone = true := hmiss it hit
  have hkeep : (Store.acceptNegative key e (m.env now) (m.lookup key)).act = .keep := by
    have hx' : (Stored.entry it).expired (m.env now).now = false := hx
    have hle' : e.version ≤ (Stored.entry it).version := hle
    rw [hit]
    simp only [Store.acceptNegative, hx', Bool.false_eq_true, if_false, ht, if_true, hle']
    split <;> rfl
  rw [m.lookup_perform_of_not_evicts (by rw [hkeep]; rfl)]
  simpa [Memory.expected, hkeep, Act.result] using hmiss

end Accept

/-- The looks of a read before it stores a negative entry. -/
theorem blocked_iff (ht : t.Ordered) : Blocked key t ks ↔ Has (fun e => e.isTombstone = true ∧
      (e.isNegative = false ∨
        ks.counter t.load.mint key + 1 = 2 ^ 64 ∧ e.expired t.load.apply = false))
      ((((ks.get t.first key).1.get t.flight key).1.peek t.load.look key).1.store.lookup key) := by
  have htimely : Timely t.load.look fun e => e.isTombstone = true ∧
      e.expired t.load.look = false ∧ (e.isNegative = false ∨
        ks.counter t.load.mint key + 1 = 2 ^ 64 ∧ e.expired t.load.apply = false) :=
    ⟨fun _ _ => Iff.rfl, fun _ h => h.2.1⟩
  obtain ⟨hfirst, hflight, -⟩ := ht
  unfold Blocked
  rw [← htimely.looks_iff (looks_get ks t.first key key) (hfirst.trans hflight),
    ← htimely.looks_iff (looks_get _ t.flight key key) hflight,
    ← htimely.looks_iff (looks_peek _ t.load.look key key) le_rfl]
  constructor
  · rintro ⟨it, hit, htomb, -, hcase⟩
    exact ⟨it, hit, htomb, hcase⟩
  · rintro ⟨it, hit, htomb, hcase⟩
    exact ⟨it, hit, htomb, (peek_spec _ _ _).2 it hit, hcase⟩

/-- After a not-found load the negative entry is there, or nothing but perhaps a tombstone. -/
theorem storeNegative_spec (hneg : 0 < cfg.negativeTTL) (ht : t.Ordered)
    (hver : ks.counter t.load.mint key < 2 ^ 64) (hmiss : (ks.get t.first key).2 = none)
    (hroom : HasRoom cfg key t ks) :
    let after := (storeNegative cfg key t.load
      ((ks.get t.first key).1.get t.flight key).1).store.lookup key
    (Blocked key t ks → Missing after) ∧
      (¬ Blocked key t ks → Holds (writes cfg key t ks).2 after) := by
  intro after
  obtain ⟨hpeek, -⟩ := peek_spec ((ks.get t.first key).1.get t.flight key).1 t.load.look key
  have hmissing := (tidy_missing t.load.look).looks (looks_peek _ t.load.look key key)
    (missing_flight hmiss t.flight)
  rw [blocked_iff ht]
  simp only [after, storeNegative, if_neg (not_le.mpr hneg)]
  cases hpos : positive (((ks.get t.first key).1.get t.flight key).1.peek t.load.look key).2 with
  | some ent =>
    -- the look found a tombstone, and nothing is stored
    refine ⟨fun _ => hmissing, fun hfree => absurd ?_ hfree⟩
    obtain ⟨hsome, hn⟩ := positive_eq_some.mp hpos
    obtain ⟨it, hit, rfl⟩ := Option.map_eq_some_iff.mp (hpeek.symm.trans hsome)
    exact ⟨it, hit, hmissing it hit, Or.inl hn⟩
  | none =>
    have hnegative : ∀ it, (((ks.get t.first key).1.get t.flight key).1.peek t.load.look
        key).1.store.lookup key = some it → it.entry.isNegative = true := by
      intro it hit
      rw [hpeek, hit] at hpos
      simpa [positive] using hpos
    have hmissing' : Missing ((writes cfg key t ks).1.store.lookup key) :=
      (tidy_missing t.load.mint).nextVersion t.load.walk key 0 _ hmissing
    have hout : Outdated (writes cfg key t ks).1.store t.load.apply key
        (writes cfg key t ks).2 ↔ _ :=
      outdated_mint_iff ht.2.2.2.1 (by rwa [counter_peek ht.2.2.1, counter_flight ht])
      t.load.walk rfl
    rw [counter_peek ht.2.2.1, counter_flight ht] at hout
    by_cases hstale : Outdated (writes cfg key t ks).1.store t.load.apply key
      (writes cfg key t ks).2
    · refine ⟨fun _ => missing_acceptNegative hmissing' hstale, fun hfree => absurd ?_ hfree⟩
      obtain ⟨hwrap, it, hit, hx⟩ := hout.mp hstale
      exact ⟨it, hit, hmissing it hit, Or.inr ⟨hwrap, hx⟩⟩
    · refine ⟨fun hblock => absurd ?_ hstale, fun _ => ?_⟩
      · obtain ⟨it, hit, -, hn | ⟨hwrap, hx⟩⟩ := hblock
        · rw [hnegative it hit] at hn
          cases hn
        · exact hout.mpr ⟨hwrap, it, hit, hx⟩
      · have hfits : Store.tooBig ((writes cfg key t ks).1.store.env t.load.apply)
            (entryCost key (writes cfg key t ks).2) = false := by
          have hfits := hroom.1
          rwa [← env_get, ← env_get, ← env_peek, ← env_nextVersion] at hfits
        exact holds_acceptNegative hmissing' hstale rfl hfits hroom.2

theorem evictions_get (ks : KsRuntime) (now : ℤ) (key : Bytes) :
    (ks.get now key).1.store.cache.evictions = ks.store.cache.evictions := by
  have hev := (looking_get key (ks.store.env now) (ks.store.lookup key)).1
  simp [KsRuntime.get, Memory.perform, Cache.exec, hev]

theorem ks_notFound (hkey : cfg.checkKey key = .ok ()) (hmiss : (ks.get t.first key).2 = none) :
    (get cfg key .notFound t ks).ks = ((storeNegative cfg key t.load
      ((ks.get t.first key).1.get t.flight key).1).get t.load.again key).1 := by
  rw [get_miss hkey hmiss]
  simp only [loadThrough]
  split <;> rfl

end Store

end Supercache.NegativeCaching
