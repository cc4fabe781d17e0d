import Supercache.Engine
import Supercache.Schedule

/-!
The versions a keyspace mints while its store changes in any way. The next version of a key is
above what its counter and the store remember. A counter is forgotten in a prune, a stored version
when the store changes or the entry expires; versions keep growing as long as neither is forgotten
before the other remembers it.
-/
namespace Supercache.Minting

open Wire Lru Schedule

structure Sys where
  ks : KsRuntime
  now : ℤ

inductive Turn where
  | next (key : Bytes) (atLeast : ℕ) (walk : Walk)
  | observe (key : Bytes) (version : ℕ) (walk : Walk)
  /-- Anything happens to the store, and time passes. -/
  | change (store : Mem) (now : ℤ)

def step (s : Sys) : Turn → Sys
  | .next key atLeast walk => { s with ks := (s.ks.nextVersion s.now walk key atLeast).1 }
  | .observe key version walk => { s with ks := s.ks.observeVersion s.now walk key version }
  | .change store now => ⟨{ s.ks with store := store }, now⟩

structure Event where
  key : Bytes
  version : ℕ
  minted : Bool
deriving DecidableEq

def event (s : Sys) : Turn → Option Event
  | .next key atLeast walk => some ⟨key, (s.ks.nextVersion s.now walk key atLeast).2, true⟩
  | .observe key version _ => some ⟨key, version, false⟩
  | .change _ _ => none

def events : Sys → List Turn → List Event
  | _, [] => []
  | s, t :: ts => (event s t).toList ++ events (step s t) ts

/-- A version minted later is greater than what its key has seen. -/
def Precedes (e e' : Event) : Prop := e'.minted = true → e.key = e'.key → e.version < e'.version

def recorded (s : Sys) : Turn → KsRuntime
  | .next key atLeast walk =>
    { s.ks with
      store := (s.ks.store.perform s.now key Store.peekVersion).1
      lastVer := s.ks.lastVer.insert key (s.ks.nextVersion s.now walk key atLeast).2 }
  | .observe key version _ =>
    { s.ks with
      lastVer :=
        if s.ks.tracked key < version then s.ks.lastVer.insert key version else s.ks.lastVer }
  | .change _ _ => s.ks

/-- Every counter the prune drops is covered by a stored version. -/
def Spares (ks : KsRuntime) (now : ℤ) (walk : Walk) : Prop :=
  ∀ k ∈ ks.lastVer.keys, k ∉ (ks.pruneLastVer now walk).lastVer →
    ks.tracked k ≤ storedVersion now (ks.store.lookup k)

instance (ks : KsRuntime) (now : ℤ) (walk : Walk) : Decidable (Spares ks now walk) := by
  unfold Spares
  infer_instance

/-- No mint at the end of the version range, no prune that drops a counter above the stored
version, and no change of the store that loses a stored version above the counter. -/
def Remembers (s : Sys) : Turn → Prop
  | .next key atLeast walk =>
    max (s.ks.counter s.now key) atLeast + 1 < 2 ^ 64 ∧
      Spares (recorded s (.next key atLeast walk)) s.now walk
  | .observe key version walk => Spares (recorded s (.observe key version walk)) s.now walk
  | .change store now => ∀ k, storedVersion s.now (s.ks.store.lookup k) ≤
      max (s.ks.tracked k) (storedVersion now (store.lookup k))

section Prune

variable (now : ℤ) (k : Bytes)

/-- A prune keeps a counter or drops it. -/
theorem lastVer_pruneLastVer (walk : Walk) (ks : KsRuntime) :
    (ks.pruneLastVer now walk).lastVer[k]? = ks.lastVer[k]? ∨
      (ks.pruneLastVer now walk).lastVer[k]? = none := by
  refine ks.pruneLastVer_rule (P := fun ks' => ks'.lastVer[k]? = ks.lastVer[k]? ∨
    ks'.lastVer[k]? = none) walk (fun _ _ => id) (fun ks' key h => ?_) (Or.inl rfl)
  rw [Std.ExtTreeMap.getElem?_erase]
  split
  · exact Or.inr rfl
  · exact h

/-- Looking at the store does not change the version of an unexpired entry. -/
theorem tidy_storedVersion (w : ℕ) : Tidy now (fun old => storedVersion now old = w) where
  flush := by
    intro it hit
    obtain ⟨blob, hblob⟩ := it.entry_flush
    simp only [storedVersion, hblob] at hit ⊢
    exact hit
  expire := by
    intro it hx hit
    simp only [storedVersion, hx, if_true] at hit ⊢
    exact hit

/-- A prune that drops only covered counters forgets nothing. -/
theorem counter_pruneLastVer {walk : Walk} {ks : KsRuntime} (h : Spares ks now walk) :
    ks.counter now k ≤ (ks.pruneLastVer now walk).counter now k := by
  have hstored : storedVersion now ((ks.pruneLastVer now walk).store.lookup k) =
      storedVersion now (ks.store.lookup k) :=
    (tidy_storedVersion now _).pruneLastVer walk ks rfl
  rw [KsRuntime.counter, KsRuntime.counter, hstored]
  refine max_le ?_ (le_max_right _ _)
  rcases lastVer_pruneLastVer now k walk ks with hsame | hnone
  · rw [KsRuntime.tracked, KsRuntime.tracked, hsame]
    exact le_max_left _ _
  · by_cases hk : k ∈ ks.lastVer
    · have hdropped : k ∉ (ks.pruneLastVer now walk).lastVer := by
        rw [Std.ExtTreeMap.mem_iff_isSome_getElem?, hnone]
        simp
      exact (h k (Std.ExtTreeMap.mem_keys.mpr hk) hdropped).trans (le_max_right _ _)
    · rw [KsRuntime.tracked, Std.ExtTreeMap.getElem?_eq_none hk]
      exact Nat.zero_le _

end Prune

def Covers (s : Sys) (seen : List Event) : Prop :=
  ∀ e ∈ seen, e.version ≤ s.ks.counter s.now e.key

section Turns

variable {s : Sys} {t : Turn}

theorem getD_insert (lastVer : ByteMap.Map ℕ) (key k : Bytes) (version : ℕ) :
    ((lastVer.insert key version)[k]?).getD 0 =
      if key = k then version else (lastVer[k]?).getD 0 := by
  simp only [ByteMap.getElem?_insert]
  split <;> rfl

theorem storedVersion_peekVersion (m : Mem) (now : ℤ) (key k : Bytes) :
    storedVersion now ((m.perform now key Store.peekVersion).1.lookup k) =
      storedVersion now (m.lookup k) :=
  (tidy_storedVersion now _).looks (looking_peekVersion.lookup m now key k) rfl

/-- Recording a version forgets nothing. -/
theorem counter_recorded (h : Remembers s t) (k : Bytes) :
    s.ks.counter s.now k ≤ (recorded s t).counter s.now k := by
  cases t with
  | next key atLeast walk =>
    have hversion : (s.ks.nextVersion s.now walk key atLeast).2 =
        max (s.ks.counter s.now key) atLeast + 1 := by
      rw [nextVersion_version, bump_of_lt h.1]
    simp only [recorded, hversion, KsRuntime.counter, storedVersion_peekVersion, KsRuntime.tracked,
      getD_insert]
    by_cases hk : key = k
    · simp only [if_pos hk]
      subst hk
      omega
    · simp only [if_neg hk]
      exact le_refl _
  | observe key version walk =>
    by_cases hlt : s.ks.tracked key < version
    · simp only [KsRuntime.tracked] at hlt
      simp only [recorded, KsRuntime.counter, KsRuntime.tracked, hlt, if_true, getD_insert]
      by_cases hk : key = k
      · simp only [if_pos hk]
        subst hk
        omega
      · simp only [if_neg hk]
        exact le_refl _
    · simp only [recorded, hlt, if_false]
      exact le_refl _
  | change store now => exact le_refl _

/-- The version of the event is recorded. -/
theorem event_recorded (e : Event) (he : event s t = some e) :
    e.version ≤ (recorded s t).counter s.now e.key := by
  cases t with
  | next key atLeast walk =>
    obtain rfl := Option.some.inj he
    simp only [recorded, KsRuntime.counter, KsRuntime.tracked, getD_insert, if_true]
    exact le_max_left _ _
  | observe key version walk =>
    obtain rfl := Option.some.inj he
    by_cases hlt : s.ks.tracked key < version
    · simp only [recorded, hlt, if_true, KsRuntime.counter]
      refine le_trans ?_ (le_max_left _ _)
      simp only [KsRuntime.tracked, getD_insert, if_true]
      exact le_refl _
    · simp only [recorded, hlt, if_false, KsRuntime.counter]
      exact (Nat.not_lt.mp hlt).trans (le_max_left _ _)
  | change store now => exact absurd he (by simp [event])

/-- A turn that forgets nothing. -/
theorem counter_step (h : Remembers s t) (k : Bytes) :
    s.ks.counter s.now k ≤ (step s t).ks.counter (step s t).now k := by
  cases t with
  | next key atLeast walk =>
    exact (counter_recorded h k).trans (counter_pruneLastVer s.now k h.2)
  | observe key version walk =>
    exact (counter_recorded h k).trans (counter_pruneLastVer s.now k h)
  | change store now => exact max_le (le_max_left _ _) (h k)

theorem covers_step {seen : List Event} (h : Remembers s t) (hseen : Covers s seen) :
    Covers (step s t) ((event s t).toList ++ seen) := by
  refine List.forall_mem_append.mpr ⟨fun e he => ?_, fun e he => ?_⟩
  · rw [Option.mem_toList] at he
    cases t with
    | next key atLeast walk =>
      exact (event_recorded e he).trans (counter_pruneLastVer s.now e.key h.2)
    | observe key version walk =>
      exact (event_recorded e he).trans (counter_pruneLastVer s.now e.key h)
    | change store now => exact absurd he (by simp [event])
  · exact (hseen e he).trans (counter_step h e.key)

/-- A mint exceeds what the keyspace remembers of its key. -/
theorem precedes_event {seen : List Event} (h : Remembers s t) (hseen : Covers s seen)
    {e e' : Event}
    (he : e ∈ seen) (he' : event s t = some e') : Precedes e e' := by
  intro hminted hkey
  cases t with
  | next key atLeast walk =>
    obtain rfl := Option.some.inj he'
    have hle := hseen e he
    rw [hkey] at hle
    dsimp only at hle ⊢
    rw [nextVersion_version, bump_of_lt h.1]
    omega
  | observe key version walk =>
    obtain rfl := Option.some.inj he'
    exact absurd hminted Bool.false_ne_true
  | change store now => exact absurd he' (by simp [event])

/-- The events of a run come after those the keyspace remembers, and in order. -/
theorem events_pairwise {seen : List Event} {turns : List Turn}
    (hrun : Along step Remembers s turns) (hseen : Covers s seen) :
    (events s turns).Pairwise Precedes ∧ ∀ e ∈ seen, ∀ e' ∈ events s turns, Precedes e e' := by
  induction turns generalizing s seen with
  | nil => exact ⟨.nil, fun _ _ _ he' => absurd he' List.not_mem_nil⟩
  | cons t ts ih =>
    obtain ⟨ht, hts⟩ := hrun
    obtain ⟨hpair, hafter⟩ := ih hts (covers_step ht hseen)
    have hfirst : ∀ e ∈ (event s t).toList, ∀ e' ∈ events (step s t) ts, Precedes e e' :=
      fun e he => hafter e (List.mem_append_left _ he)
    refine ⟨List.pairwise_append.mpr ⟨?_, hpair, hfirst⟩, fun e he => ?_⟩
    · cases event s t with
      | none => exact .nil
      | some e => exact List.pairwise_singleton _ _
    · refine List.forall_mem_append.mpr ⟨fun e' he' => ?_, hafter e (List.mem_append_right _ he)⟩
      rw [Option.mem_toList] at he'
      exact precedes_event ht hseen he he'

end Turns

/-- Over every run of mints and observations of any keys, with any changes of the store in
between, a minted version exceeds every version minted or observed before for its key, as
long as every turn remembers. -/
theorem versions_increase {s : Sys} {turns : List Turn} (hrun : Along step Remembers s turns) :
    (events s turns).Pairwise Precedes :=
  (events_pairwise hrun (fun _ he => absurd he List.not_mem_nil : Covers s [])).1

def threeStored : Sys :=
  ⟨⟨[([1], 5), ([2], 7), ([3], 2)].foldl (fun m (k, version) =>
      (m.perform 0 k (Store.acceptIfNewer k ⟨[9], version, 0, 0⟩)).1) (Memory.newMemory 0 0),
    ∅, 2⟩, 1⟩

def coveredPrunes : List Turn :=
  [.observe [1] 5 ⟨[[1]], [[1]]⟩, .observe [2] 7 ⟨[[1], [2]], [[1], [2]]⟩,
    .next [3] 0 ⟨[[1], [2], [3]], [[1], [2], [3]]⟩, .next [1] 0 ⟨[[1], [2], [3]], [[2], [1], [3]]⟩]

/-- Prunes that drop counters which stored versions cover. -/
theorem versions_increase_over_prunes :
    events threeStored coveredPrunes =
        [⟨[1], 5, false⟩, ⟨[2], 7, false⟩, ⟨[3], 3, true⟩, ⟨[1], 6, true⟩] ∧
      (events threeStored coveredPrunes).Pairwise Precedes := by
  refine ⟨by decide +kernel, versions_increase ⟨?_, ?_, ⟨?_, ?_⟩, ⟨?_, ?_⟩, trivial⟩⟩
  · rw [Remembers]
    decide +kernel
  · rw [Remembers]
    decide +kernel
  all_goals decide +kernel

def oneTracked : Sys := ⟨⟨Memory.newMemory 0 0, ∅, 1⟩, 1⟩

/-- The second key's mint drops the first key's counter, which no stored version covers. -/
theorem version_minted_twice :
    events oneTracked
        [.next [1] 0 ⟨[[1]], [[1]]⟩, .next [2] 0 ⟨[[1], [2]], [[2]]⟩,
        .next [1] 0 ⟨[[2], [1]], [[1]]⟩] =
      [⟨[1], 1, true⟩, ⟨[2], 1, true⟩, ⟨[1], 1, true⟩] := by
  decide +kernel

end Supercache.Minting
