import Supercache.LoadCalls

/-!
Whether a forced load takes effect. It goes through the fill of an ordinary
load, and that never replaces a live value. So the next read returns the loaded
value exactly when no other value was live before.
-/
namespace Supercache.ForceLoad

open Wire Lru LoadCalls

section Refresh

variable (cfg : Config) (key v : Bytes) (p : Pace) (ks : KsRuntime)

def writes : KsRuntime × Entry := fillEntry cfg key p v (ks.get p.look key).1

/-- The store has room for the loaded value. -/
def HasRoom : Prop := RoomFor ks p.apply key (writes cfg key v p ks)

/-- A live value is the loaded one already and lasts until the next read. If there is none, the
counter does not wrap or nothing unexpired is left to stand against it, and the loaded value lasts
until then. -/
def Refreshable (now : ℤ) : Prop :=
  match positive (ks.get p.look key).2 with
  | some e => e.value = v ∧ e.expired now = false
  | none =>
    (ks.counter p.mint key + 1 < 2 ^ 64 ∨
      ¬ Has (fun e => e.expired p.apply = false) (ks.store.lookup key)) ∧
    (expireAt p.mint cfg.ttl = 0 ∨ now < expireAt p.mint cfg.ttl)

/-- The next read returns the loaded value whatever the data source then says. -/
def NextReads (now : ℤ) (after : KsRuntime) : Prop :=
  ∀ load t, t.first = now → (get cfg key load t after).result = .ok v

end Refresh

variable {cfg : Config} {key v : Bytes} {p : Pace} {ks : KsRuntime} {now : ℤ}

/-- A read that the data source cannot help returns what is cached. -/
theorem nextReads_iff_of_holds (hkey : cfg.checkKey key = .ok ()) {e : Entry}
    (h : Holds e (ks.store.lookup key)) (ht : e.isTombstone = false) (hn : e.isNegative = false) :
    NextReads cfg key v now ks ↔ e.value = v ∧ e.expired now = false := by
  constructor
  · intro hnext
    obtain ⟨e', he', hval⟩ := get_failed hkey
      (hnext .failed ⟨now, now, ⟨now, now, now, now, ⟨[], []⟩⟩⟩ rfl)
    rw [get_of_holds h ht] at he'
    cases hx : e.expired now with
    | true => simp [hx, positive] at he'
    | false =>
      simp only [hx, Bool.false_eq_true, if_false] at he'
      obtain ⟨heq, -⟩ := positive_eq_some.mp he'
      cases heq
      exact ⟨hval, rfl⟩
  · rintro ⟨hval, hx⟩ load t ht'
    have hhit : (ks.get t.first key).2 = some e := by
      rw [get_of_holds h ht, ht', hx]
      rfl
    rw [get_hit hkey hhit]
    simp [answer, hn, hval]

theorem not_nextReads_of_lacking (hkey : cfg.checkKey key = .ok ())
    (h : Lacking (ks.store.lookup key)) : ¬ NextReads cfg key v now ks := by
  intro hnext
  obtain ⟨e, he, -⟩ := get_failed hkey
    (hnext .failed ⟨now, now, ⟨now, now, now, now, ⟨[], []⟩⟩⟩ rfl)
  rw [get_of_lacking h] at he
  cases he

/-- A look that finds nothing live leaves nothing live. -/
theorem lacking_of_get (h : positive (ks.get now key).2 = none) :
    Lacking ((ks.get now key).1.store.lookup key) := by
  rcases get_spec ks now key with ⟨-, hmiss⟩ | ⟨e, hsome, -, -, it, hit, hentry, -⟩
  · exact hmiss.lacking
  · intro it' hit'
    rw [hit] at hit'
    cases hit'
    rw [hentry]
    rw [hsome] at h
    cases hn : e.isNegative with
    | true => exact Or.inr rfl
    | false => simp [positive, hn] at h

/-- On the owner a forced load is the fill of a load. -/
theorem forceLoad_eq (hkey : cfg.checkKey key = .ok ()) (hsize : cfg.validateValueSize v = .ok ()) :
    forceLoad cfg true key (.value v) p ks = ((fill cfg key p v ks).1, .ok ()) := by
  simp [forceLoad, hkey, loadThrough, hsize, Except.map]

theorem expired_eq_false_iff (e : Entry) :
    e.expired now = false ↔ e.expireAt = 0 ∨ now < e.expireAt := by
  simp only [Entry.expired, Bool.and_eq_false_iff, decide_eq_false_iff_not]
  omega

/-- A forced load on the owner returns without an error, and the next read returns the loaded
value exactly if no other value was live. -/
theorem forced_refresh_iff (cfg : Config) (key v : Bytes) (p : Pace) (ks : KsRuntime) (now : ℤ)
    (hkey : cfg.checkKey key = .ok ()) (hsize : cfg.validateValueSize v = .ok ())
    (hp : p.Ordered) (hver : ks.counter p.mint key < 2 ^ 64) (hroom : HasRoom cfg key v p ks) :
    (forceLoad cfg true key (.value v) p ks).2 = .ok () ∧
      (NextReads cfg key v now (forceLoad cfg true key (.value v) p ks).1 ↔
        Refreshable cfg key v p ks now) := by
  rw [forceLoad_eq hkey hsize]
  refine ⟨rfl, ?_⟩
  unfold Refreshable
  simp only [fill]
  cases hcur : positive (ks.get p.look key).2 with
  | some e =>
    obtain ⟨hsome, hn⟩ := positive_eq_some.mp hcur
    obtain ⟨-, ht, hholds⟩ := holds_of_get hsome
    exact nextReads_iff_of_holds hkey hholds ht hn
  | none =>
    change NextReads cfg key v now (writeFill key p v (writes cfg key v p ks).1
      (writes cfg key v p ks).2).1 ↔ _
    have hout : Outdated (writes cfg key v p ks).1.store p.apply key (writes cfg key v p ks).2 ↔
        _ := outdated_mint_iff hp.2.1 (by rwa [counter_get hp.1]) p.walk rfl
    rw [counter_get hp.1, (timely_unexpired p.apply).looks_iff (looks_get ks p.look key key)
      (hp.1.trans hp.2.1)] at hout
    by_cases hstale : Outdated (writes cfg key v p ks).1.store p.apply key
      (writes cfg key v p ks).2
    · obtain ⟨hwrap, hstands⟩ := hout.mp hstale
      have hlack := (tidy_lacking p.mint).nextVersion p.walk key 0 _ (lacking_of_get hcur)
      refine iff_of_false (not_nextReads_of_lacking hkey (writeFill_refused hstale hlack)) ?_
      rintro ⟨hlt | hgone, -⟩
      · omega
      · exact hgone hstands
    · have henv : (writes cfg key v p ks).1.store.env p.apply = ks.store.env p.apply :=
        (env_nextVersion p.mint p.apply p.walk key 0 _).trans (ks.store.perform_env _ _ _ _)
      have hstored : (writeFill key p v (writes cfg key v p ks).1
          (writes cfg key v p ks).2).1.store.lookup key = some (LruItem.new _) :=
        (writeFill_stored hstale (by rw [henv]; exact hroom.1) hroom.2).1
      have hflag : ∀ flag, (writes cfg key v p ks).2.has flag = false := by
        simp [writes, fillEntry, Entry.has]
      rw [nextReads_iff_of_holds hkey (hstored ▸ holds_new _) (hflag _) (hflag _),
        expired_eq_false_iff]
      have hwins : ks.counter p.mint key + 1 < 2 ^ 64 ∨
          ¬ Has (fun e => e.expired p.apply = false) (ks.store.lookup key) := by
        by_contra hneither
        push Not at hneither
        exact hstale (hout.mpr ⟨by omega, hneither.2⟩)
      exact ⟨fun h => ⟨hwins, h.2⟩, fun h => ⟨rfl, h.2⟩⟩

/-- Over a tombstone the loaded value is there for the next read. -/
theorem forced_refresh_over_tombstone :
    let cfg : Config := ⟨10, 10, 50, 0, 0, 0, 0⟩
    let p : Pace := ⟨1, 2, 3, 4, ⟨[], []⟩⟩
    let ks : KsRuntime := ⟨run (Memory.newMemory 1000 100)
      [⟨0, [107], .plain (.deleteIfVersion 5)⟩],
      ∅, 0⟩
    (forceLoad cfg true [107] (.value [7]) p ks).2 = .ok () ∧
      NextReads cfg [107] [7] 40 (forceLoad cfg true [107] (.value [7]) p ks).1 := by
  intro cfg p ks
  have hroom : HasRoom cfg [107] [7] p ks :=
    ⟨by decide +kernel, Or.inr (Or.inr (by decide +kernel))⟩
  obtain ⟨hok, hiff⟩ := forced_refresh_iff cfg [107] [7] p ks 40 (by decide) (by decide)
    ⟨by decide, by decide, by decide⟩ (by decide +kernel) hroom
  have hnone : positive (ks.get p.look [107]).2 = none := by decide +kernel
  refine ⟨hok, hiff.mpr ?_⟩
  unfold Refreshable
  rw [hnone]
  exact ⟨Or.inl (by decide +kernel), Or.inr (by decide)⟩

/-- A value was cached: the forced load succeeds and the next read returns the old value. -/
theorem forced_refresh_ignored :
    let cfg : Config := ⟨10, 10, 50, 0, 0, 0, 0⟩
    let p : Pace := ⟨1, 2, 3, 4, ⟨[], []⟩⟩
    let ks : KsRuntime :=
      ⟨run (Memory.newMemory 1000 100) [⟨0, [107], .plain (.set ⟨[1], 1, 0, 0⟩)⟩], ∅, 0⟩
    HasRoom cfg [107] [7] p ks ∧ (forceLoad cfg true [107] (.value [7]) p ks).2 = .ok () ∧
      ∀ load t, (get cfg [107] load t (forceLoad cfg true [107] (.value [7]) p ks).1).result =
        .ok [1] := by
  intro cfg p ks
  refine ⟨⟨by decide +kernel, Or.inr (Or.inr (by decide +kernel))⟩, by decide +kernel, ?_⟩
  intro load t
  have hcached : Holds ⟨[1], 1, 0, 0⟩
      ((forceLoad cfg true [107] (.value [7]) p ks).1.store.lookup [107]) :=
    ⟨LruItem.new ⟨[1], 1, 0, 0⟩, rfl, rfl, rfl⟩
  rw [get_hit (by decide) ((get_of_holds hcached rfl).trans (if_neg (by simp [Entry.expired])))]
  rfl

end Supercache.ForceLoad
