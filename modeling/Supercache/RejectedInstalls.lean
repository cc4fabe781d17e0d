import Supercache.ReadYourWrites

/-!
What a refused snapshot leaves behind. An install removes the entry it beats
before it decodes the new one, and a mutation that starts over on a tombstone
removes it before it looks at the member. So the entry is lost exactly when the
version wins and the call then fails.
-/
namespace Supercache

open Wire Lru Store

/-- If the call returns false, an unexpired entry of the key is as it was. -/
def KeepsEntry (m : Mem) (now : ℤ) (key : Bytes) (v : Verb LruItem Bool) : Prop :=
  (m.perform now key v).2 = false → ∀ it, m.lookup key = some it → it.entry.expired now = false →
    ∃ it', (m.perform now key v).1.lookup key = some it' ∧ it'.entry = it.entry

/-- The version is above that of an unexpired entry of the key. -/
def Beats (m : Mem) (now : ℤ) (key : Bytes) (version : ℕ) : Prop :=
  ∃ it, m.lookup key = some it ∧ it.entry.expired now = false ∧ it.entry.version < version

/-- The version is above that of an unexpired tombstone of the key. -/
def BeatsTombstone (m : Mem) (now : ℤ) (key : Bytes) (version : ℕ) : Prop :=
  ∃ it, m.lookup key = some it ∧ it.entry.expired now = false ∧ it.entry.isTombstone = true ∧
    it.entry.version < version

section Keeps

variable {m : Mem} {now : ℤ} {key : Bytes} {v : Verb LruItem Bool}

/-- A call that leaves the item alone keeps its entry. -/
theorem keepsEntry_of_keep (h : ∀ it, m.lookup key = some it → it.entry.expired now = false →
      (v (m.env now) (some it)).act = .keep) : KeepsEntry m now key v := by
  intro _ it hit hx
  have hact := h it hit hx
  refine ⟨it, ?_, rfl⟩
  rw [m.lookup_perform_of_not_evicts (by rw [hit, hact]; rfl)]
  simp [Memory.expected, hit, hact, Act.result]

theorem not_keepsEntry_of_gone (hx : (m.lookup key).map (·.entry.expired now) = some false)
    (hret : (m.perform now key v).2 = false)
    (hgone : (m.perform now key v).1.lookup key = none) : ¬ KeepsEntry m now key v := by
  intro hkeeps
  obtain ⟨it, hit, hlive⟩ := Option.map_eq_some_iff.mp hx
  obtain ⟨it', hit', -⟩ := hkeeps hret it hit hlive
  rw [hgone] at hit'
  cases hit'

/-- A call that fails after removing the item loses the entry. -/
theorem not_keepsEntry_of_drop {it : LruItem} (hit : m.lookup key = some it)
    (hx : it.entry.expired now = false) (hplan : v (m.env now) (some it) = .drop false) :
    ¬ KeepsEntry m now key v := by
  refine not_keepsEntry_of_gone (by rw [hit]; exact congrArg some hx) ?_ ?_
  · rw [Memory.perform_ret, hit, hplan]
    rfl
  · rw [m.lookup_perform_of_not_evicts (by rw [hit, hplan]; rfl)]
    simp [Memory.expected, hit, hplan, Plan.drop, Act.result]

/-- A call that puts a new item in place of the old one keeps the old entry, by not returning
false, exactly when the new one is not evicted at once. -/
theorem keepsEntry_insert_iff {it new : LruItem} (hit : m.lookup key = some it)
    (hx : it.entry.expired now = false) (hplan : v (m.env now) (some it) =
      ⟨.insert (entryCost key new.entry) new, .quiet, id⟩) :
    KeepsEntry m now key v ↔ Room m now key new.entry := by
  have hact : (v (m.env now) (m.lookup key)).act = .insert (entryCost key new.entry) new := by
    rw [hit, hplan]
  have hfronts : Cache.Act.Fronts (m.cache.find key).isSome (entryCost key new.entry) new
      (v (m.env now) (m.lookup key)).act := by
    rw [hact]
    exact .insert
  have hroom : (m.perform now key v).1.lookup key = some new ↔ Room m now key new.entry :=
    m.wf.lookup_exec_front_iff (fun it => it.entry.pinned now) hfronts
  have hret : (m.perform now key v).2 = ((m.perform now key v).1.lookup key).isSome := by
    rw [Memory.perform_ret, hit, hplan]
    rfl
  rw [← hroom]
  constructor
  · intro hkeeps
    rcases m.lookup_perform now key v key with heq | ⟨hnone, -⟩
    · rw [heq]
      simp [Memory.expected, hact, Act.result]
    · rw [hnone] at hret
      obtain ⟨it', hit', -⟩ := hkeeps hret it hit hx
      simp [hnone] at hit'
  · intro hnew hfalse
    simp [hret, hnew] at hfalse

end Keeps

section Families

variable {σ : Type} (K : Kind σ) (m : Mem) (now : ℤ) (key : Bytes) {version : ℕ} {expireAt : ℤ}

/-- The gate passes before the bytes are decoded. -/
theorem cachedInstall_keeps_iff {gate : Entry → Option Tally} (blob : Bytes)
    (hgate : ∀ e, gate e = none ↔ e.version < version) :
    KeepsEntry m now key (cachedInstall K gate key blob version expireAt) ↔
      (Beats m now key version → (K.decode blob).isSome = true ∧
        Room m now key ⟨blob, version, expireAt, K.flag⟩) := by
  by_cases hbeats : Beats m now key version
  · obtain ⟨it, hit, hx, hlt⟩ := hbeats
    have hx' : it.entry.expired (m.env now).now = false := hx
    rw [imp_iff_right ⟨it, hit, hx, hlt⟩]
    cases hdecode : K.decode blob with
    | none =>
      have hplan : cachedInstall K gate key blob version expireAt (m.env now) (some it) =
          .drop false := by
        simp [cachedInstall, hx', (hgate it.entry).mpr hlt, hdecode]
      simpa using not_keepsEntry_of_drop hit hx hplan
    | some s =>
      have hentry : (K.itemOf ⟨blob, version, expireAt, K.flag⟩ s).entry =
          ⟨blob, version, expireAt, K.flag⟩ := K.entry_setSlot _ _
      have hplan : cachedInstall K gate key blob version expireAt (m.env now) (some it) =
          ⟨.insert (entryCost key (K.itemOf ⟨blob, version, expireAt, K.flag⟩ s).entry)
            (K.itemOf ⟨blob, version, expireAt, K.flag⟩ s), .quiet, id⟩ := by
        simp [cachedInstall, hx', (hgate it.entry).mpr hlt, hdecode, hentry]
      rw [keepsEntry_insert_iff hit hx hplan, hentry]
      simp
  · refine iff_of_true (keepsEntry_of_keep fun it hit hx => ?_) fun h => absurd h hbeats
    have hx' : it.entry.expired (m.env now).now = false := hx
    cases hg : gate it.entry with
    | none => exact absurd ⟨it, hit, hx, (hgate it.entry).mp hg⟩ hbeats
    | some tally => simp [cachedInstall, hx', hg]

/-- A mutation that fails on every value. -/
theorem mutate_keeps_iff {stored : Option ℕ → ℕ} {f : σ → Option σ} (hf : ∀ s, f s = none) :
    KeepsEntry m now key (K.mutate key version expireAt stored f) ↔
      ¬ BeatsTombstone m now key version := by
  constructor
  · rintro hkeeps ⟨it, hit, hx, ht, hlt⟩
    have hx' : it.entry.expired (m.env now).now = false := hx
    refine not_keepsEntry_of_drop hit hx ?_ hkeeps
    simp [Kind.mutate, hx', ht, Nat.not_le.mpr hlt, Kind.create, hf]
  · refine fun hnot => keepsEntry_of_keep fun it hit hx => ?_
    have hx' : it.entry.expired (m.env now).now = false := hx
    simp only [Kind.mutate, hx', Bool.false_eq_true, if_false]
    by_cases ht : it.entry.isTombstone
    · rw [if_pos ht]
      by_cases hle : version ≤ it.entry.version
      · rw [if_pos hle]
        rfl
      · rw [if_neg hle]
        exact absurd ⟨it, hit, hx, ht, Nat.not_le.mp hle⟩ hnot
    · rw [if_neg ht]
      split
      · split
        · rfl
        · rw [hf]
          rfl
      · rfl

end Families

theorem setInstallGate_none (version : ℕ) (e : Entry) :
    setInstallGate version e = none ↔ e.version < version := by
  unfold setInstallGate
  split
  · split <;> simp <;> omega
  · split
    · split
      · simp
        omega
      · split <;> simp <;> omega
    · split <;> simp <;> omega

theorem installGate_none (flag version : ℕ) (e : Entry) :
    installGate flag version e = none ↔ e.version < version := by
  unfold installGate
  split <;> simp <;> omega

/-- A refused install keeps the entry it found exactly when its version does not win, or when its
blob decodes and the new entry has room; an add with an invalid score or coordinate keeps it
exactly when it does not beat a tombstone. -/
theorem rejected_changes_nothing_iff (m : Mem) (now : ℤ) (key blob : Bytes) (version : ℕ)
    (expireAt : ℤ) :
    (KeepsEntry m now key (setInstall key blob version expireAt) ↔
      (Beats m now key version → (SetX.decodeSet blob).isSome = true ∧
        Room m now key ⟨blob, version, expireAt, flagSet⟩)) ∧
    (KeepsEntry m now key (zInstall key blob version expireAt) ↔
      (Beats m now key version → (ZSet.decode blob).isSome = true ∧
        Room m now key ⟨blob, version, expireAt, flagZSet⟩)) ∧
    (KeepsEntry m now key (geoInstall key blob version expireAt) ↔
      (Beats m now key version → (Geo.decode blob).isSome = true ∧
        Room m now key ⟨blob, version, expireAt, flagGeo⟩)) ∧
    (KeepsEntry m now key (lInstall key blob version expireAt) ↔
      (Beats m now key version → (ListX.decode blob).isSome = true ∧
        Room m now key ⟨blob, version, expireAt, flagList⟩)) ∧
    (KeepsEntry m now key (hInstall key blob version expireAt) ↔
      (Beats m now key version → (HashX.decode blob).isSome = true ∧
        Room m now key ⟨blob, version, expireAt, flagHash⟩)) ∧
    (∀ member score, FloatBits.isNaN score = true →
      (KeepsEntry m now key (zAdd key member score version expireAt) ↔
        ¬ BeatsTombstone m now key version)) ∧
    ∀ member p, Geo.validCoord p = false →
      (KeepsEntry m now key (geoAdd key member p version expireAt) ↔
        ¬ BeatsTombstone m now key version) := by
  refine ⟨cachedInstall_keeps_iff setKind m now key blob (setInstallGate_none version),
    cachedInstall_keeps_iff zKind m now key blob (installGate_none flagZSet version),
    cachedInstall_keeps_iff gKind m now key blob (installGate_none flagGeo version),
    cachedInstall_keeps_iff lKind m now key blob (installGate_none flagList version),
    cachedInstall_keeps_iff hKind m now key blob (installGate_none flagHash version), ?_, ?_⟩
  · intro member score hnan
    exact mutate_keeps_iff zKind m now key fun z => by simp [ZSet.add, hnan]
  · intro member p hinvalid
    exact mutate_keeps_iff gKind m now key fun g => by simp [Geo.add, hinvalid]

/-- A malformed set with an old version is refused and the stored set stays; one more NaN score
is refused and the tombstone stays. -/
theorem rejected_changes_nothing_old :
    let live := run (Memory.newMemory 1000 100) [⟨0, [1], .cached (.setAdd [7] 5 0)⟩]
    let gone := run (Memory.newMemory 1000 100) [⟨0, [1], .plain (.deleteIfVersion 5)⟩]
    KeepsEntry live 1 [1] (setInstall [1] [255] 5 0) ∧
      KeepsEntry gone 1 [1] (zAdd [1] [7] 0x7FF8000000000000 5 0) := by
  intro live gone
  have hlive : (live.lookup [1]).map (·.entry.version) = some 5 := by decide +kernel
  have hgone : (gone.lookup [1]).map (·.entry.version) = some 5 := by decide +kernel
  obtain ⟨hset, -⟩ := rejected_changes_nothing_iff live 1 [1] [255] 5 0
  obtain ⟨-, -, -, -, -, hz, -⟩ := rejected_changes_nothing_iff gone 1 [1] [255] 5 0
  refine ⟨hset.mpr ?_, (hz [7] 0x7FF8000000000000 (by decide)).mpr ?_⟩
  · rintro ⟨it, hit, -, hlt⟩
    rw [hit] at hlive
    exact absurd (Option.some.inj hlive) hlt.ne
  · rintro ⟨it, hit, -, -, hlt⟩
    rw [hit] at hgone
    exact absurd (Option.some.inj hgone) hlt.ne

/-- A malformed set with a newer version erases the stored set, and a NaN score with a newer
version lifts the tombstone; both calls return false. -/
theorem rejected_erases :
    let live := run (Memory.newMemory 1000 100) [⟨0, [1], .cached (.setAdd [7] 5 0)⟩]
    let gone := run (Memory.newMemory 1000 100) [⟨0, [1], .plain (.deleteIfVersion 5)⟩]
    ¬ KeepsEntry live 1 [1] (setInstall [1] [255] 6 0) ∧
      ¬ KeepsEntry gone 1 [1] (zAdd [1] [7] 0x7FF8000000000000 6 0) :=
  ⟨not_keepsEntry_of_gone (by decide +kernel) (by decide +kernel) (by decide +kernel),
    not_keepsEntry_of_gone (by decide +kernel) (by decide +kernel) (by decide +kernel)⟩

end Supercache
