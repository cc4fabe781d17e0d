import Supercache.Tombstones

/-!
How the version stored under a key moves. Most gates turn away what is not newer, and most modes
store one more than the version they find. Sets, sorted sets, geo indexes and hashes store the
caller's version without comparing it. For each versioned call there is the exact condition under
which the stored version does not go down.
-/
namespace Supercache

open Wire Lru Store

namespace StoredVersions

/-- The entry is still there, with no lower version. -/
def Keeps (it : LruItem) (new : Option LruItem) : Prop :=
  ∃ it', new = some it' ∧ it.entry.version ≤ it'.entry.version

/-- The next version does not wrap. -/
def Room (it : LruItem) : Prop := it.entry.version + 1 < 2 ^ 64

section Keeps

variable {it it' : LruItem}

theorem keeps_some : Keeps it (some it') ↔ it.entry.version ≤ it'.entry.version := by
  simp [Keeps]

theorem keeps_self : Keeps it (some it) := keeps_some.mpr le_rfl

theorem not_keeps_none : ¬ Keeps it none := by
  rintro ⟨it', heq, -⟩
  exact absurd heq (by simp)

theorem le_bump_iff (it : LruItem) : it.entry.version ≤ bump it.entry.version ↔ Room it := by
  unfold Room bump
  constructor
  · intro h
    have hlt := Nat.mod_lt (it.entry.version + 1) (show 0 < 2 ^ 64 by decide)
    by_contra hge
    by_cases heq : it.entry.version + 1 = 2 ^ 64
    · rw [heq, Nat.mod_self] at h
      omega
    · omega
  · intro h
    rw [Nat.mod_eq_of_lt h]
    omega

/-- Over a tombstone older than a version there is always a next one. -/
theorem room_of_lt {v : ℕ} (hv : v < 2 ^ 64) (h : it.entry.version < v) : Room it := by
  unfold Room
  omega

/-- What a call makes of a live value decides, when it spares all else. -/
theorem keeps_iff_of_live {new : Option LruItem} {flag : ℕ} {ok : Prop}
    (htomb : it.entry.isTombstone = true → Keeps it new)
    (hother : it.entry.isTombstone = false → it.entry.has flag = false → Keeps it new)
    (hlive : it.entry.isTombstone = false → it.entry.has flag = true →
      (Keeps it new ↔ (ok → Room it))) :
    Keeps it new ↔ (it.entry.isTombstone = false ∧ it.entry.has flag = true ∧ ok → Room it) := by
  cases ht : it.entry.isTombstone with
  | true => simp [htomb ht]
  | false =>
    cases hhas : it.entry.has flag with
    | false => simp [hother ht hhas]
    | true => simp [hlive ht hhas]

end Keeps

section Kinds

variable {σ : Type} (K : Kind σ)

def Rewrites (f : σ → Option σ) (it : LruItem) : Prop :=
  it.entry.isTombstone = false ∧ it.entry.has K.flag = true ∧ ((K.load it).bind f).isSome = true

def AddKeeps (version : ℕ) (f : σ → Option σ) (it : LruItem) : Prop :=
  (Rewrites K f it → it.entry.version ≤ version) ∧
    (it.entry.isTombstone = true → it.entry.version < version → (f K.new).isSome = true)

def RemKeeps (version : ℕ) (f : σ → Option σ) (it : LruItem) : Prop :=
  Rewrites K f it → it.entry.version ≤ version

def NextKeeps (f : σ → Option σ) (it : LruItem) : Prop := Rewrites K f it → Room it

/-- An install that removes the old entry before it looks at the bytes. -/
def InstallKeeps (version : ℕ) (blob : Bytes) (it : LruItem) : Prop :=
  it.entry.version < version → (K.decode blob).isSome = true

end Kinds

section Plain

/-- A live value gets new content: the operation accepts its bytes. -/
def PlainRewrites (flag : ℕ) (ok : Bytes → Bool) (it : LruItem) : Prop :=
  it.entry.isTombstone = false ∧ it.entry.has flag = true ∧ ok it.entry.value = true

def PlainKeeps (flag : ℕ) (ok : Bytes → Bool) (it : LruItem) : Prop :=
  PlainRewrites flag ok it → Room it

def commits {ρ : Type} : Outcome ρ → Bool
  | .refuse _ => false
  | .commit _ _ => true

end Plain

section Json

open JsonText

def jsonSet (path raw : Bytes) (maxValue : ℤ) (doc : Json) : Option Json :=
  match JsonX.decode raw, JsonX.parsePath path with
  | some val, some p =>
    match JsonX.set doc p val with
    | .error _ => none
    | .ok doc => if overLimit maxValue (JsonX.encode doc).length then none else some doc
  | _, _ => none

def jsonDel (path : Bytes) (doc : Json) : Option Json :=
  (JsonX.parsePath path).bind fun p => JsonX.del doc p

def JsonKeeps (f : Json → Option Json) (it : LruItem) : Prop :=
  it.entry.isTombstone = false → it.entry.has flagJSON = true →
    (((jDoc it).map Prod.fst).bind f).isSome = true → Room it

end Json

end StoredVersions

open StoredVersions

def PlainCall.Keeps (it : LruItem) : PlainCall → Prop
  | cIncr delta _ _ =>
    PlainKeeps flagCounter
      (fun b => ((Counter.decode b).bind fun cur => Counter.add cur delta).isSome) it
  | bloomAdd _ m k v _ =>
    it.entry.isTombstone = true → it.entry.version < v →
      (Bloom.open_ m k (List.replicate ((m + 7) / 8) 0)).isSome = true
  | bSet offset bit _ _ maxValue =>
    PlainKeeps flagBitmap
      (fun b => ((BitmapX.encodedLen offset).any fun need => !overLimit maxValue need) &&
        commits (commitWithin maxValue (BitmapX.set b offset bit))) it
  | hllAdd _ _ _ maxValue =>
    PlainKeeps flagHLL (fun _ => !overLimit maxValue HllX.denseSize && true) it
  | topkAdd item _ _ k maxValue =>
    PlainKeeps flagTopK
      (fun b => !decide (k < 1) && (!decide (item = []) &&
        commits (topkApply item k maxValue (some b)))) it
  | cmsIncr item n _ _ maxValue =>
    PlainKeeps flagCMS
      (fun b => !decide (item = []) && (!overLimit maxValue CmsX.denseSize &&
        commits (cmsApply item n (some b)))) it
  | vAdd member vec _ _ maxValue =>
    PlainKeeps flagVectorSet
      (fun b => !decide (member.length < 1 ∨ VecSet.maxMemberLen < member.length ∨
          !VecSet.validDim vec.length ∨ !VecSet.finite vec) &&
        commits (vsApply member vec maxValue (some b))) it
  | vRem _ _ _ => PlainKeeps flagVectorSet (fun b => (VecSet.decodeSnapshot b).isSome) it
  | xAdd payload _ _ maxValue autoTrim nowMilli =>
    PlainKeeps flagStream (fun b => commits (sxApply payload maxValue autoTrim nowMilli (some b)))
      it
  | xDel id _ _ =>
    PlainKeeps flagStream
      (fun b => (Stream.parseID id).isSome && (Stream.decodeSnapshot b).isSome) it
  | xTrim maxLen _ _ =>
    PlainKeeps flagStream (fun b => !decide (maxLen < 0) && (Stream.decodeSnapshot b).isSome) it
  | _ => True

def CachedCall.Keeps (it : LruItem) : CachedCall → Prop
  | setAdd item v _ => AddKeeps setKind v (fun s => some (SetX.add s item)) it
  | setRemove item v _ => RemKeeps setKind v (fun s => some (SetX.remove s item)) it
  | setInstall blob v _ => InstallKeeps setKind v blob it
  | zAdd member score v _ => AddKeeps zKind v (fun z => ZSet.add z member score) it
  | zRem member v _ => RemKeeps zKind v (fun z => some (ZSet.rem z member)) it
  | zInstall blob v _ => InstallKeeps zKind v blob it
  | geoAdd member p v _ => AddKeeps gKind v (fun g => Geo.add g member p) it
  | geoRem member v _ => RemKeeps gKind v (fun g => some (Geo.rem g member)) it
  | geoInstall blob v _ => InstallKeeps gKind v blob it
  | lPush item _ _ => NextKeeps lKind (fun l => some (ListX.lPush l item)) it
  | rPush item _ _ => NextKeeps lKind (fun l => some (ListX.rPush l item)) it
  | lPop _ _ => NextKeeps lKind (fun l => (ListX.lPop l).map Prod.snd) it
  | rPop _ _ => NextKeeps lKind (fun l => (ListX.rPop l).map Prod.snd) it
  | lInstall blob v _ => InstallKeeps lKind v blob it
  | hSet field value v _ => AddKeeps hKind v (fun h => some (HashX.set h field value)) it
  | hDel field v _ => RemKeeps hKind v (fun h => some (HashX.del h field)) it
  | hInstall blob v _ => InstallKeeps hKind v blob it
  | jSet path raw _ _ maxValue => JsonKeeps (jsonSet path raw maxValue) it
  | jDel path _ _ => JsonKeeps (jsonDel path) it
  | _ => True

def Call.Keeps (it : LruItem) : Call → Prop
  | plain c => c.Keeps it
  | cached c => c.Keeps it

namespace StoredVersions

section Kinds

variable {σ : Type} (K : Kind σ) {env : Env} {it : LruItem} (hx : it.entry.expired env.now = false)
  {version : ℕ} {expireAt : ℤ} {stored : Option ℕ → ℕ} {f : σ → Option σ} (key : Bytes)
include hx

/-- A mutation over a live value or over what it cannot work on. -/
theorem mutate_live_iff (ht : it.entry.isTombstone = false) :
    Keeps it ((K.mutate key version expireAt stored f env (some it)).act.result (some it)) ↔
      (Rewrites K f it → it.entry.version ≤ stored (some it.entry.version)) := by
  cases hhas : it.entry.has K.flag with
  | false => simp [Kind.mutate, hx, ht, hhas, Plan.skip, Act.result, keeps_self, Rewrites]
  | true =>
    cases hload : K.load it with
    | none => simp [Kind.mutate, hx, ht, hhas, hload, Plan.skip, Act.result, keeps_self, Rewrites]
    | some s =>
      rw [K.mutate_of_live key version expireAt stored f hx ht hhas hload]
      cases hf : f s with
      | none => simp [Plan.skip, Act.result, keeps_self, Rewrites, hload, hf]
      | some s' =>
        simp [Kind.commit, Act.result, keeps_some, Rewrites, ht, hhas, hload, hf, Kind.touched]

/-- A mutation over a tombstone. -/
theorem mutate_tombstone_iff (ht : it.entry.isTombstone = true) :
    Keeps it ((K.mutate key version expireAt stored f env (some it)).act.result (some it)) ↔
      (it.entry.version < version →
        (f K.new).isSome = true ∧ it.entry.version ≤ stored (some it.entry.version)) := by
  by_cases hold : version ≤ it.entry.version
  · simp [Kind.mutate, hx, ht, hold, Plan.stale, Act.result, keeps_self]
  · rw [Nat.not_le] at hold
    simp only [Kind.mutate, hx, ht, Nat.not_le.mpr hold, Bool.false_eq_true, if_false, if_true,
      Kind.create, hold, true_implies]
    cases hf : f K.new with
    | none => simp [Plan.drop, Act.result, not_keeps_none]
    | some s => simp [Act.result, keeps_some, Kind.itemOf, LruItem.new]

theorem addKeeps_iff :
    Keeps it ((K.mutate key version expireAt (fun _ => version) f env (some it)).act.result
      (some it)) ↔ AddKeeps K version f it := by
  cases ht : it.entry.isTombstone with
  | false =>
    rw [mutate_live_iff K hx key ht]
    simp [AddKeeps, ht]
  | true =>
    rw [mutate_tombstone_iff K hx key ht]
    constructor
    · exact fun h => ⟨fun hr => absurd (ht.symm.trans hr.1) (by simp), fun _ hlt => (h hlt).1⟩
    · exact fun h hlt => ⟨h.2 ht hlt, hlt.le⟩

theorem remKeeps_iff :
    Keeps it ((K.removeVerb key version expireAt (fun _ => version) f env (some it)).act.result
      (some it)) ↔ RemKeeps K version f it := by
  unfold Kind.removeVerb
  simp only [hx, Bool.false_eq_true, if_false]
  cases ht : it.entry.isTombstone with
  | true =>
    have hkeep : RemKeeps K version f it := fun hr => absurd (ht.symm.trans hr.1) (by simp)
    simp only [if_true, hkeep, iff_true]
    split <;> exact keeps_self
  | false =>
    cases hhas : it.entry.has K.flag with
    | false =>
      have hkeep : RemKeeps K version f it := fun hr => absurd (hhas.symm.trans hr.2.1) (by simp)
      simp only [Bool.not_false, if_true, Bool.false_eq_true, if_false, hkeep, iff_true]
      exact keeps_self
    | true =>
      simp only [Bool.not_true, Bool.false_eq_true, if_false]
      exact mutate_live_iff K hx key ht

theorem pushKeeps_iff (hv : version < 2 ^ 64) (hnew : (f K.new).isSome = true) :
    Keeps it ((K.mutate key version expireAt nextStored f env (some it)).act.result (some it)) ↔
      NextKeeps K f it := by
  cases ht : it.entry.isTombstone with
  | false =>
    rw [mutate_live_iff K hx key ht]
    exact imp_congr_right fun _ => le_bump_iff it
  | true =>
    rw [mutate_tombstone_iff K hx key ht]
    constructor
    · exact fun _ hr => absurd (ht.symm.trans hr.1) (by simp)
    · exact fun _ hlt => ⟨hnew, (le_bump_iff it).mpr (room_of_lt hv hlt)⟩

omit hx in
theorem isSome_installGate (flag : ℕ) (e : Entry) :
    (installGate flag version e).isSome = decide (version ≤ e.version) := by
  unfold installGate
  split <;> simp_all

omit hx in
theorem isSome_setInstallGate (e : Entry) :
    (setInstallGate version e).isSome = decide (version ≤ e.version) := by
  unfold setInstallGate
  split
  · split <;> simp_all
  · split
    · by_cases hlt : version < e.version
      · simp [hlt, hlt.le]
      · rw [if_neg hlt]
        by_cases heq : version = e.version
        · simp [heq]
        · rw [if_neg heq]
          have hgt : ¬ version ≤ e.version := by omega
          simp [hgt]
    · split <;> simp_all

theorem installKeeps_iff {blob : Bytes} {gate : Entry → Option Tally}
    (hgate : (gate it.entry).isSome = decide (version ≤ it.entry.version)) :
    Keeps it ((cachedInstall K gate key blob version expireAt env (some it)).act.result
      (some it)) ↔ InstallKeeps K version blob it := by
  unfold InstallKeeps
  simp only [cachedInstall, hx, Bool.false_eq_true, if_false]
  by_cases hold : version ≤ it.entry.version
  · rw [decide_eq_true hold] at hgate
    obtain ⟨tally, htally⟩ := Option.isSome_iff_exists.mp hgate
    simp [htally, Act.result, keeps_self, Nat.not_lt.mpr hold]
  · rw [decide_eq_false hold, Option.isSome_eq_false_iff, Option.isNone_iff_eq_none] at hgate
    rw [Nat.not_le] at hold
    simp only [hgate, hold, true_implies]
    cases hdec : K.decode blob with
    | none => simp [Plan.drop, Act.result, not_keeps_none]
    | some s =>
      simpa [Act.result, keeps_some, Kind.itemOf, K.entry_setSlot, LruItem.new] using hold.le

end Kinds

section Pops

variable {env : Env} {it : LruItem} (hx : it.entry.expired env.now = false)
include hx

theorem popVerb_keeps_iff (key : Bytes) (version : ℕ) (expireAt : ℤ)
    (pop : ListX.Items → Option (Bytes × ListX.Items)) :
    Keeps it ((popVerb key version expireAt pop env (some it)).act.result (some it)) ↔
      NextKeeps lKind (fun l => (pop l).map Prod.snd) it := by
  refine keeps_iff_of_live (fun ht => ?_) (fun ht hhas => ?_) fun ht hhas => ?_
  · simp only [popVerb, hx, ht, Bool.false_eq_true, if_false, if_true]
    split <;> exact keeps_self
  · have hhas : it.entry.has flagList = false := hhas
    simp only [popVerb, hx, ht, hhas, Bool.false_eq_true, if_false, if_true, Bool.not_false]
    exact keeps_self
  · have hhas : it.entry.has flagList = true := hhas
    simp only [popVerb, hx, ht, hhas, Bool.false_eq_true, if_false, Bool.not_true]
    cases lKind.load it with
    | none => exact iff_of_true keeps_self (by simp)
    | some l =>
      simp only [Option.bind_some]
      cases pop l with
      | none => exact iff_of_true keeps_self (by simp)
      | some r =>
        simp only [Option.map_some, Option.isSome_some, true_implies, Kind.commit, Act.result,
          keeps_some, Kind.entry_setSlot, Kind.touched]
        exact le_bump_iff it

end Pops

section KeyValue

variable {env : Env} {it : LruItem} (hx : it.entry.expired env.now = false)
include hx

theorem acceptIfNewer_keeps (key : Bytes) (e : Entry) :
    Keeps it ((acceptIfNewer key e env (some it)).act.result (some it)) := by
  simp only [acceptIfNewer, entry, hx, Bool.not_false, true_and]
  by_cases hold : e.version ≤ it.entry.version
  · rw [if_pos hold]
    exact keeps_self
  · rw [if_neg hold]
    split
    · exact keeps_self
    · exact keeps_some.mpr (Nat.not_le.mp hold).le

theorem acceptNegative_keeps (key : Bytes) (e : Entry) :
    Keeps it ((acceptNegative key e env (some it)).act.result (some it)) := by
  simp only [acceptNegative, entry, hx, Bool.false_eq_true, if_false]
  split
  · exact keeps_self
  · split
    · by_cases hold : e.version ≤ it.entry.version
      · rw [if_pos hold]
        exact keeps_self
      · rw [if_neg hold]
        exact keeps_some.mpr (Nat.not_le.mp hold).le
    · split
      · exact keeps_self
      · by_cases hold : e.version ≤ it.entry.version
        · rw [if_pos hold]
          exact keeps_self
        · rw [if_neg hold]
          exact keeps_some.mpr (Nat.not_le.mp hold).le

theorem deleteIfVersion_keeps (key : Bytes) (version : ℕ) :
    Keeps it ((deleteIfVersion key version env (some it)).act.result (some it)) := by
  simp only [deleteIfVersion, entry, hx, Bool.not_false, true_and]
  by_cases hold : version < it.entry.version
  · rw [if_pos hold]
    exact keeps_self
  · rw [if_neg hold]
    exact keeps_some.mpr (Nat.not_lt.mp hold)

end KeyValue

section Plain

theorem lt_of_installGate {flag version : ℕ} {e : Entry} (h : installGate flag version e = none) :
    e.version < version := by
  simpa [installGate] using h

variable {env : Env} {it : LruItem} (hx : it.entry.expired env.now = false)
  {flag version : ℕ} {expireAt : ℤ} (key : Bytes)

theorem writeOver_keeps_iff (blob : Bytes) (mode : WriteMode) :
    Keeps it ((writeOver key it blob flag expireAt mode).result (some it)) ↔ Room it := by
  simp only [writeOver, Act.result, Option.map_some, keeps_some]
  exact le_bump_iff it

include hx

/-- A plain mutation stores the next version. -/
theorem mutatePlain_keeps_iff {ρ : Type} (hv : version < 2 ^ 64) (refused : ρ)
    (op : Option Bytes → Outcome ρ) :
    Keeps it ((mutatePlain flag key version expireAt refused op env (some it)).act.result
      (some it)) ↔ PlainKeeps flag (fun b => commits (op (some b))) it := by
  refine keeps_iff_of_live (fun ht => ?_) (fun ht hhas => ?_) fun ht hhas => ?_
  · simp only [mutatePlain, entry, hx, ht, Bool.false_eq_true, if_false, if_true]
    by_cases hold : version ≤ it.entry.version
    · rw [if_pos hold]
      exact keeps_self
    · rw [if_neg hold]
      cases op none with
      | refuse r => exact keeps_self
      | commit blob r =>
        exact (writeOver_keeps_iff key blob clamped).mpr (room_of_lt hv (Nat.not_le.mp hold))
  · simp only [mutatePlain, entry, hx, ht, hhas, Bool.false_eq_true, if_false]
    exact keeps_self
  · simp only [mutatePlain, entry, hx, ht, hhas, Bool.false_eq_true, if_false, if_true]
    cases op (some it.entry.value) with
    | refuse r => exact iff_of_true keeps_self (by simp [commits])
    | commit blob r => simpa [commits] using writeOver_keeps_iff key blob clamped

theorem removePlain_keeps_iff (op : Bytes → Option Bytes) :
    Keeps it ((removePlain flag key version expireAt op env (some it)).act.result (some it)) ↔
      PlainKeeps flag (fun b => (op b).isSome) it := by
  refine keeps_iff_of_live (fun ht => ?_) (fun ht hhas => ?_) fun ht hhas => ?_
  · simp only [removePlain, entry, hx, ht, Bool.false_eq_true, if_false, if_true]
    split <;> exact keeps_self
  · simp only [removePlain, entry, hx, ht, hhas, Bool.false_eq_true, if_false, if_true,
      Bool.not_false]
    exact keeps_self
  · simp only [removePlain, entry, hx, ht, hhas, Bool.false_eq_true, if_false, Bool.not_true]
    cases op it.entry.value with
    | none => exact iff_of_true keeps_self (by simp)
    | some blob => simpa using writeOver_keeps_iff key blob _

variable {blob : Bytes}

/-- An install that is turned away by what is not older keeps the version. -/
theorem plainInstall_keeps {gate : Entry → Option Tally}
    (hgate : gate it.entry = none → it.entry.version < version) :
    Keeps it ((plainInstall gate flag key blob version expireAt env (some it)).act.result
      (some it)) := by
  simp only [plainInstall, entry, hx, Bool.false_eq_true, if_false]
  split
  · exact keeps_self
  next hnone =>
    exact keeps_some.mpr (hgate hnone).le

theorem checkedInstall_keeps (ok : Bool) :
    Keeps it ((checkedInstall ok flag key blob version expireAt env (some it)).act.result
      (some it)) := by
  unfold checkedInstall
  split
  · exact plainInstall_keeps hx key lt_of_installGate
  · exact keeps_self

theorem cIncr_keeps_iff (hv : version < 2 ^ 64) (delta : ℤ) :
    Keeps it ((cIncr key delta version expireAt env (some it)).act.result (some it)) ↔
      (PlainCall.cIncr delta version expireAt).Keeps it := by
  refine keeps_iff_of_live (fun ht => ?_) (fun ht hhas => ?_) fun ht hhas => ?_
  · simp only [cIncr, entry, hx, ht, Bool.false_eq_true, if_false, if_true]
    by_cases hold : version ≤ it.entry.version
    · rw [if_pos hold]
      exact keeps_self
    · rw [if_neg hold]
      exact keeps_some.mpr ((le_bump_iff it).mpr (room_of_lt hv (Nat.not_le.mp hold)))
  · simp only [cIncr, entry, hx, ht, hhas, Bool.false_eq_true, if_false, if_true, Bool.not_false]
    exact keeps_self
  · simp only [cIncr, entry, hx, ht, hhas, Bool.false_eq_true, if_false, Bool.not_true]
    cases Counter.decode it.entry.value with
    | none => exact iff_of_true keeps_self (by simp)
    | some cur =>
      simp only [Option.bind_some]
      cases Counter.add cur delta with
      | none => exact iff_of_true keeps_self (by simp)
      | some next => simpa using writeOver_keeps_iff key _ _

/-- A live filter keeps its version; over a tombstone a filter is created or the tombstone
is lost. -/
theorem bloomMutate_keeps_iff (m k : ℕ) (f : Bloom.Filter → Bloom.Filter) :
    Keeps it ((bloomMutate key m k version expireAt f env (some it)).act.result (some it)) ↔
      (it.entry.isTombstone = true → it.entry.version < version →
        (Bloom.open_ m k (List.replicate ((m + 7) / 8) 0)).isSome = true) := by
  simp only [bloomMutate, entry, hx, Bool.false_eq_true, if_false]
  cases ht : it.entry.isTombstone with
  | true =>
    simp only [if_true, true_implies]
    by_cases hold : version ≤ it.entry.version
    · simp only [hold, if_true, Nat.not_lt.mpr hold, false_implies, iff_true]
      exact keeps_self
    · rw [Nat.not_le] at hold
      simp only [Nat.not_le.mpr hold, if_false, hold, true_implies]
      cases Bloom.open_ m k (List.replicate ((m + 7) / 8) 0) with
      | none => simp [Plan.drop, Act.result, not_keeps_none]
      | some filter =>
        simp only [Option.isSome_some, iff_true]
        exact keeps_some.mpr hold.le
  | false =>
    simp only [Bool.false_eq_true, if_false, false_implies, iff_true]
    split
    · exact keeps_self
    · split
      · exact keeps_self
      · exact keeps_some.mpr le_rfl

end Plain

section Json

open JsonText

variable {env : Env} {it : LruItem} (hx : it.entry.expired env.now = false)
  {version : ℕ} {expireAt : ℤ} (key : Bytes)

/-- A document written over an item, unless it is too long. -/
theorem jCommitReplace_keeps_iff {it' : LruItem} (hentry : it'.entry = it.entry) (doc : Json)
    (maxValue : ℤ) :
    Keeps it ((jCommitReplace key it' doc (bump it'.entry.version) expireAt maxValue).act.result
        (some it)) ↔ (overLimit maxValue (JsonX.encode doc).length = false → Room it) := by
  unfold jCommitReplace
  by_cases hover : overLimit maxValue (List.length (JsonX.encode doc))
  · rw [if_pos hover]
    simp only [hover, Bool.true_eq_false, false_implies, iff_true]
    exact keeps_some.mpr (by rw [hentry])
  · rw [if_neg hover]
    simp only [Bool.eq_false_iff.mpr hover, true_implies]
    simp only [Act.result, Option.map_some, keeps_some, jReplaced, rewritten, hentry]
    exact le_bump_iff it

include hx

theorem jSet_keeps_iff (hv : version < 2 ^ 64) (path raw : Bytes) (maxValue : ℤ) :
    Keeps it ((jSet key path raw version expireAt maxValue env (some it)).act.result (some it)) ↔
      JsonKeeps (jsonSet path raw maxValue) it := by
  unfold jSet JsonKeeps jsonSet
  rw [← and_imp, ← and_imp, and_assoc]
  rcases JsonX.decode raw with - | val
  · refine ⟨fun _ hlive => ?_, fun _ => keeps_self⟩
    cases hdoc : jDoc it <;> simp [hdoc] at hlive
  rcases JsonX.parsePath path with - | p
  · refine ⟨fun _ hlive => ?_, fun _ => keeps_self⟩
    cases hdoc : jDoc it <;> simp [hdoc] at hlive
  refine keeps_iff_of_live (fun ht => ?_) (fun ht hhas => ?_) fun ht hhas => ?_
  · simp only [hx, ht, Bool.false_eq_true, if_false, if_true]
    by_cases hold : version ≤ it.entry.version
    · rw [if_pos hold]
      exact keeps_self
    · rw [if_neg hold]
      split
      · exact keeps_self
      · exact (jCommitReplace_keeps_iff key rfl _ maxValue).mpr fun _ =>
          room_of_lt hv (Nat.not_le.mp hold)
  · simp only [hx, ht, hhas, Bool.false_eq_true, if_false, if_true, Bool.not_false]
    exact keeps_self
  · simp only [hx, ht, hhas, Bool.false_eq_true, if_false, Bool.not_true]
    cases hdoc : jDoc it with
    | none => exact iff_of_true keeps_self (by simp)
    | some r =>
      have hentry := entry_of_jDoc hdoc
      simp only [Option.map_some, Option.bind_some]
      cases JsonX.set r.1 p val with
      | error e =>
        simp only [Option.isSome_none, Bool.false_eq_true, false_implies, iff_true]
        exact keeps_some.mpr (by rw [hentry])
      | ok doc =>
        rw [jCommitReplace_keeps_iff key hentry doc maxValue]
        cases hover : overLimit maxValue (JsonX.encode doc).length <;> simp [hover]

theorem jDel_keeps_iff (path : Bytes) :
    Keeps it ((jDel key path version expireAt env (some it)).act.result (some it)) ↔
      JsonKeeps (jsonDel path) it := by
  unfold jDel JsonKeeps jsonDel
  rw [← and_imp, ← and_imp, and_assoc]
  refine keeps_iff_of_live (fun ht => ?_) (fun ht hhas => ?_) fun ht hhas => ?_
  · simp only [hx, ht, Bool.false_eq_true, if_false, if_true]
    split <;> exact keeps_self
  · simp only [hx, ht, hhas, Bool.false_eq_true, if_false, if_true, Bool.not_false]
    exact keeps_self
  · simp only [hx, ht, hhas, Bool.false_eq_true, if_false, Bool.not_true]
    cases JsonX.parsePath path with
    | none => exact iff_of_true keeps_self (by cases jDoc it <;> simp)
    | some p =>
      cases hdoc : jDoc it with
      | none => exact iff_of_true keeps_self (by simp)
      | some r =>
        have hentry := entry_of_jDoc hdoc
        simp only [Option.map_some, Option.bind_some]
        cases JsonX.del r.1 p with
        | none =>
          simp only [Option.isSome_none, Bool.false_eq_true, false_implies, iff_true]
          exact keeps_some.mpr (by rw [hentry])
        | some doc =>
          simp only [Option.isSome_some, true_implies, Act.result, Option.map_some, keeps_some,
            jReplaced, rewritten, hentry]
          exact le_bump_iff it

theorem jInstall_keeps (blob : Bytes) :
    Keeps it ((jInstall key blob version expireAt env (some it)).act.result (some it)) := by
  unfold jInstall
  cases JsonX.decode blob with
  | none => exact keeps_self
  | some doc =>
    simp only [hx, Bool.false_eq_true, if_false]
    split
    · exact keeps_self
    next hnone =>
      exact keeps_some.mpr (lt_of_installGate hnone).le

end Json

section Calls

variable {env : Env} {it : LruItem} (hx : it.entry.expired env.now = false) {v : ℕ}
  (hv : v < 2 ^ 64)
include hx hv

variable {ρ : Type} {flag : ℕ} {ok : Bytes → Bool} {plan : Plan LruItem ρ} {r : ρ}

omit hx hv in
/-- What a call does behind a guard. -/
theorem plainKeeps_of_guard {guard : Prop} [Decidable guard]
    (hplan : Keeps it (plan.act.result (some it)) ↔ PlainKeeps flag ok it) :
    Keeps it ((if guard then Plan.skip r else plan).act.result (some it)) ↔
      PlainKeeps flag (fun b => !decide guard && ok b) it := by
  by_cases h : guard
  · rw [if_pos h]
    refine iff_of_true keeps_self fun hr => ?_
    simp [PlainRewrites, h] at hr
  · rw [if_neg h]
    simpa [h] using hplan

omit hx hv in
/-- The same when the guard is a test. -/
theorem plainKeeps_of_test {test : Bool}
    (hplan : Keeps it (plan.act.result (some it)) ↔ PlainKeeps flag ok it) :
    Keeps it ((if test then Plan.skip r else plan).act.result (some it)) ↔
      PlainKeeps flag (fun b => !test && ok b) it := by
  have hguard : Keeps it ((if test then Plan.skip r else plan).act.result (some it)) ↔
      PlainKeeps flag (fun b => !decide (test = true) && ok b) it := plainKeeps_of_guard hplan
  simpa using hguard

/-- The plain calls, one by one. -/
theorem plain_keeps_iff {c : PlainCall} (hc : c.access = .write v) (key : Bytes) :
    Keeps it ((c.verb key env (some it)).act.result (some it)) ↔ c.Keeps it := by
  cases c <;> simp only [PlainCall.access, Access.write.injEq, reduceCtorEq] at hc <;> subst hc
  case acceptIfNewer e => exact iff_of_true (acceptIfNewer_keeps hx key e) trivial
  case acceptNegative e => exact iff_of_true (acceptNegative_keeps hx key e) trivial
  case deleteIfVersion => exact iff_of_true (deleteIfVersion_keeps hx key _) trivial
  case cIncr delta w x => exact cIncr_keeps_iff hx key hv delta
  case bloomAdd item m k w x => exact bloomMutate_keeps_iff hx key m k _
  case bloomMerge bits m k w x =>
    refine iff_of_true ?_ trivial
    simp only [PlainCall.verb, Verb.map, bloomMerge]
    cases hopen : Bloom.open_ m k bits with
    | none => exact keeps_self
    | some remote =>
      exact (bloomMutate_keeps_iff hx key m k _).mpr fun _ _ => Bloom.open_zeros_of_open hopen
  case cInstall | bInstall | hllInstall | topkInstall | cmsInstall | vsInstall =>
    exact iff_of_true (checkedInstall_keeps hx key _) trivial
  case sxInstall blob w x =>
    refine iff_of_true ?_ trivial
    simp only [PlainCall.verb, Verb.map, sxInstall]
    split
    · exact plainInstall_keeps hx key fun hnone => by simpa using hnone
    · exact keeps_self
  case bSet offset bit w x maxValue =>
    simp only [PlainCall.verb, Verb.map, bSet, PlainCall.Keeps]
    cases BitmapX.encodedLen offset with
    | none => exact iff_of_true keeps_self fun hr => by simp [PlainRewrites] at hr
    | some need => exact plainKeeps_of_test (mutatePlain_keeps_iff hx key hv _ _)
  case hllAdd item w x maxValue =>
    simp only [PlainCall.verb, Verb.map, hllAdd, PlainCall.Keeps]
    exact plainKeeps_of_test (mutatePlain_keeps_iff hx key hv _ _)
  case topkAdd item w x k maxValue =>
    simp only [PlainCall.verb, Verb.map, topkAdd, PlainCall.Keeps]
    exact plainKeeps_of_guard (plainKeeps_of_guard (mutatePlain_keeps_iff hx key hv _ _))
  case cmsIncr item n w x maxValue =>
    simp only [PlainCall.verb, Verb.map, cmsIncr, PlainCall.Keeps]
    exact plainKeeps_of_guard (plainKeeps_of_test (mutatePlain_keeps_iff hx key hv _ _))
  case vAdd member vec w x maxValue =>
    simp only [PlainCall.verb, Verb.map, vAdd, PlainCall.Keeps]
    exact plainKeeps_of_guard (mutatePlain_keeps_iff hx key hv _ _)
  case xAdd payload w x maxValue autoTrim nowMilli =>
    simp only [PlainCall.verb, Verb.map, xAdd, PlainCall.Keeps]
    exact mutatePlain_keeps_iff hx key hv _ _
  case vRem member w x =>
    simp only [PlainCall.verb, Verb.map, vRem, PlainCall.Keeps]
    rw [removePlain_keeps_iff hx key]
    simp only [Option.isSome_map]
  case xDel id w x =>
    simp only [PlainCall.verb, Verb.map, xDel, PlainCall.Keeps]
    cases Stream.parseID id with
    | none => exact iff_of_true keeps_self fun hr => by simp [PlainRewrites] at hr
    | some ms =>
      rw [removePlain_keeps_iff hx key]
      simp only [Option.isSome_map, Option.isSome_some, Bool.true_and]
  case xTrim maxLen w x =>
    simp only [PlainCall.verb, Verb.map, xTrim, PlainCall.Keeps]
    refine plainKeeps_of_guard ?_
    rw [removePlain_keeps_iff hx key]
    simp only [Option.isSome_map]

/-- The calls on cached modes, one by one. -/
theorem cached_keeps_iff {c : CachedCall} (hc : c.access = .write v) (key : Bytes) :
    Keeps it ((c.verb key env (some it)).act.result (some it)) ↔ c.Keeps it := by
  cases c <;> simp only [CachedCall.access, Access.write.injEq, reduceCtorEq] at hc <;> subst hc
  case setAdd | zAdd | geoAdd | hSet => exact addKeeps_iff _ hx key
  case setRemove | zRem | geoRem | hDel => exact remKeeps_iff _ hx key
  case setInstall => exact installKeeps_iff _ hx key (isSome_setInstallGate _)
  case zInstall | geoInstall | lInstall | hInstall =>
    exact installKeeps_iff _ hx key (isSome_installGate _ _)
  case lPush | rPush => exact pushKeeps_iff _ hx key hv rfl
  case lPop | rPop => exact popVerb_keeps_iff hx key _ _ _
  case jSet path raw w x maxValue => exact jSet_keeps_iff hx key hv path raw maxValue
  case jDel path w x => exact jDel_keeps_iff hx key path
  case jInstall blob w x => exact iff_of_true (jInstall_keeps hx key blob) trivial

theorem call_keeps_iff {c : Call} (hc : c.access = .write v) (key : Bytes) :
    Keeps it ((c.verb key env (some it)).act.result (some it)) ↔ c.Keeps it := by
  cases c with
  | plain c => exact plain_keeps_iff hx hv hc key
  | cached c => exact cached_keeps_iff hx hv hc key

end Calls

/-- The key holds what the call itself leaves there: eviction has not taken it. -/
def Unevicted (m : Mem) (now : ℤ) (key : Bytes) (c : Call) : Prop :=
  (m.perform now key (c.verb key)).1.lookup key = m.expected now key (c.verb key) key

/-- A versioned call on a key with an unexpired entry leaves an entry with no lower version,
unless it is evicted, exactly when its condition holds. -/
theorem stored_version_kept_iff {m : Mem} {now : ℤ} {key : Bytes} {it : LruItem} {c : Call} {v : ℕ}
    (hlook : m.lookup key = some it) (hx : it.entry.expired now = false)
    (hc : c.access = .write v) (hv : v < 2 ^ 64) (hstays : Unevicted m now key c) :
    (∃ it', (m.perform now key (c.verb key)).1.lookup key = some it' ∧
      it.entry.version ≤ it'.entry.version) ↔ c.Keeps it := by
  rw [show (m.perform now key (c.verb key)).1.lookup key = _ from hstays, Memory.expected,
    if_pos rfl, hlook]
  exact call_keeps_iff hx hv hc key

def setAtFive : Mem := run (Memory.newMemory 0 0) [⟨0, [0], .cached (.setAdd [1] 5 0)⟩]

/-- An add at version seven is fine. -/
theorem stored_version_kept_at_seven :
    ∃ it, setAtFive.lookup [0] = some it ∧
      ∃ it', (step setAtFive ⟨1, [0], .cached (.setAdd [2] 7 0)⟩).1.lookup [0] = some it' ∧
        it.entry.version ≤ it'.entry.version := by
  have hentry : (setAtFive.lookup [0]).map (fun it => (it.entry.version, it.entry.expireAt)) =
      some (5, 0) := by decide +kernel
  obtain ⟨it, hlook, heq⟩ := Option.map_eq_some_iff.mp hentry
  obtain ⟨hversion, hexpire⟩ := Prod.mk.inj heq
  have hx : it.entry.expired 1 = false := by simp [Entry.expired, hexpire]
  refine ⟨it, hlook, (stored_version_kept_iff hlook hx (c := .cached (.setAdd [2] 7 0)) rfl
    (by decide) ?_).mpr ⟨fun _ => ?_, fun _ _ => rfl⟩⟩
  · exact setAtFive.lookup_perform_of_unbounded (by decide +kernel) 1 [0] _ [0]
  · rw [hversion]
    decide

/-- An add at version three lowers the stored version from five to three. -/
theorem stored_version_lowered :
    (setAtFive.lookup [0]).map (fun it => it.entry.version) = some 5 ∧
      ((step setAtFive ⟨1, [0], .cached (.setAdd [2] 3 0)⟩).1.lookup [0]).map
        (fun it => it.entry.version) = some 3 := by
  refine ⟨?_, ?_⟩ <;> decide +kernel

end StoredVersions

end Supercache
