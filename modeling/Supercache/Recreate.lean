import Supercache.Ops

/-!
Creating a value over a tombstone. Some modes take the tombstone away and insert a
new element, others write over it in place. The ones that write over it follow the
rule for live entries, where an expiry of zero leaves the one there is: so without an
expiry of its own the new value ends when the tombstone would have.
-/
namespace Supercache

open Wire Lru Store JsonText

def Ret.applied : Ret → Bool
  | bool b => b
  | pair p => p.1
  | counted c => c.2.1
  | added x => x.applied
  | _ => false

inductive Creator where
  | setAdd (item : Bytes) (version : ℕ) (expireAt : ℤ)
  | zAdd (member : Bytes) (score : UInt64) (version : ℕ) (expireAt : ℤ)
  | geoAdd (member : Bytes) (p : Geo.Point) (version : ℕ) (expireAt : ℤ)
  | hSet (field value : Bytes) (version : ℕ) (expireAt : ℤ)
  | lPush (item : Bytes) (version : ℕ) (expireAt : ℤ)
  | rPush (item : Bytes) (version : ℕ) (expireAt : ℤ)
  | cIncr (delta : ℤ) (version : ℕ) (expireAt : ℤ)
  | jSet (path raw : Bytes) (version : ℕ) (expireAt maxValue : ℤ)
  | bSet (offset : ℕ) (bit : Bool) (version : ℕ) (expireAt maxValue : ℤ)
  | hllAdd (item : Bytes) (version : ℕ) (expireAt maxValue : ℤ)
  | topkAdd (item : Bytes) (version : ℕ) (expireAt : ℤ) (k : ℕ) (maxValue : ℤ)
  | cmsIncr (item : Bytes) (n version : ℕ) (expireAt maxValue : ℤ)
  | vAdd (member : Bytes) (vec : List UInt32) (version : ℕ) (expireAt maxValue : ℤ)
  | xAdd (payload : Bytes) (version : ℕ) (expireAt maxValue autoTrim : ℤ) (nowMilli : ℕ)

namespace Creator

def call : Creator → Call
  | setAdd item v x => .cached (.setAdd item v x)
  | zAdd member score v x => .cached (.zAdd member score v x)
  | geoAdd member p v x => .cached (.geoAdd member p v x)
  | hSet field value v x => .cached (.hSet field value v x)
  | lPush item v x => .cached (.lPush item v x)
  | rPush item v x => .cached (.rPush item v x)
  | cIncr delta v x => .plain (.cIncr delta v x)
  | jSet path raw v x maxValue => .cached (.jSet path raw v x maxValue)
  | bSet offset bit v x maxValue => .plain (.bSet offset bit v x maxValue)
  | hllAdd item v x maxValue => .plain (.hllAdd item v x maxValue)
  | topkAdd item v x k maxValue => .plain (.topkAdd item v x k maxValue)
  | cmsIncr item n v x maxValue => .plain (.cmsIncr item n v x maxValue)
  | vAdd member vec v x maxValue => .plain (.vAdd member vec v x maxValue)
  | xAdd payload v x maxValue autoTrim ms => .plain (.xAdd payload v x maxValue autoTrim ms)

def expireAt : Creator → ℤ
  | setAdd _ _ x | zAdd _ _ _ x | geoAdd _ _ _ x | hSet _ _ _ x | lPush _ _ x | rPush _ _ x
  | cIncr _ _ x | jSet _ _ _ x _ | bSet _ _ _ x _ | hllAdd _ _ x _ | topkAdd _ _ x _ _
  | cmsIncr _ _ _ x _ | vAdd _ _ _ x _ | xAdd _ _ x _ _ _ => x

def inserts : Creator → Bool
  | setAdd .. | zAdd .. | geoAdd .. | hSet .. | lPush .. | rPush .. | cIncr .. => true
  | _ => false

end Creator

section Outcomes

/-- The answer says that the mutation was applied exactly if it was committed and the key
is still there. -/
inductive Store.Outcome.Honest {ρ : Type} (applied : ρ → Bool) : Outcome ρ → Prop
  | refuse {r : ρ} (h : applied r = false) : Honest applied (.refuse r)
  | commit {blob : Bytes} {r : Bool → ρ} (h : ∀ still, applied (r still) = still) :
    Honest applied (.commit blob r)

theorem honest_commit (blob : Bytes) :
    (Outcome.commit blob fun still => (still, false)).Honest Prod.fst :=
  .commit fun _ => rfl

theorem honest_commitWithin (maxValue : ℤ) (blob : Bytes) :
    (commitWithin maxValue blob).Honest Prod.fst := by
  unfold commitWithin
  split
  · exact .refuse rfl
  · exact honest_commit blob

theorem honest_topkApply (item : Bytes) (k : ℕ) (maxValue : ℤ) (cur : Option Bytes) :
    (topkApply item k maxValue cur).Honest Prod.fst := by
  unfold topkApply
  dsimp only
  split
  · exact .refuse rfl
  · exact honest_commitWithin maxValue _

theorem honest_vsApply (member : Bytes) (vec : List UInt32) (maxValue : ℤ) (cur : Option Bytes) :
    (vsApply member vec maxValue cur).Honest Prod.fst := by
  unfold vsApply
  dsimp only
  split
  · exact .refuse rfl
  · split
    · exact .refuse rfl
    · split
      · exact .refuse rfl
      · exact honest_commitWithin maxValue _

theorem honest_cmsApply (item : Bytes) (n : ℕ) (cur : Option Bytes) :
    (cmsApply item n cur).Honest Prod.fst := by
  unfold cmsApply
  split
  · exact .refuse rfl
  · exact honest_commit _

theorem honest_sxApply (payload : Bytes) (maxValue autoTrim : ℤ) (nowMilli : ℕ)
    (cur : Option Bytes) :
    (sxApply payload maxValue autoTrim nowMilli cur).Honest XAdded.applied := by
  unfold sxApply
  dsimp only
  split
  · exact .refuse rfl
  · split
    · exact .refuse rfl
    · split
      · exact .refuse rfl
      · exact .commit fun _ => rfl

/-- What a plain mode does with a value: it refuses the arguments, or mutates the bytes and says
whether it did. -/
inductive InPlace {ρ : Type} (key : Bytes) (x : ℤ) (applied : ρ → Bool) (env : Env)
    (old : Option LruItem) : Plan LruItem ρ → Prop
  | refused {r : ρ} (h : applied r = false) : InPlace key x applied env old (.skip r)
  | mutate {flag : ℕ} (hflag : flag ∈ Entry.pinnedFlags) (version : ℕ) {refused : ρ}
    {op : Option Bytes → Outcome ρ} (hrefused : applied refused = false)
    (hop : ∀ cur, (op cur).Honest applied) :
    InPlace key x applied env old (mutatePlain flag key version x refused op env old)

def Creator.inPlace : Creator → Bool
  | bSet .. | hllAdd .. | topkAdd .. | cmsIncr .. | vAdd .. | xAdd .. => true
  | _ => false

/-- These write over the tombstone in place. -/
theorem Creator.exists_inPlace (c : Creator) (hc : c.inPlace = true) (key : Bytes) :
    ∃ (ρ : Type) (applied : ρ → Bool) (verb : Verb LruItem ρ) (f : ρ → Ret),
      c.call.verb key = verb.map f ∧ (∀ r, (f r).applied = applied r) ∧
        ∀ env old, InPlace key c.expireAt applied env old (verb env old) := by
  cases c with
  | setAdd | zAdd | geoAdd | hSet | lPush | rPush | cIncr | jSet => simp [Creator.inPlace] at hc
  | bSet offset bit v x maxValue =>
    refine ⟨_, Prod.fst, Store.bSet key offset bit v x maxValue, _, rfl, fun _ => rfl, ?_⟩
    intro env old
    unfold Store.bSet
    split
    · exact .refused rfl
    · split
      · exact .refused rfl
      · exact .mutate (by decide) v rfl fun _ => honest_commitWithin maxValue _
  | hllAdd item v x maxValue =>
    refine ⟨_, Prod.fst, Store.hllAdd key item v x maxValue, _, rfl, fun _ => rfl, ?_⟩
    intro env old
    unfold Store.hllAdd
    split
    · exact .refused rfl
    · exact .mutate (by decide) v rfl fun _ => honest_commit _
  | topkAdd item v x k maxValue =>
    refine ⟨_, Prod.fst, Store.topkAdd key item v x k maxValue, _, rfl, fun _ => rfl, ?_⟩
    intro env old
    unfold Store.topkAdd
    split
    · exact .refused rfl
    · split
      · exact .refused rfl
      · exact .mutate (by decide) v rfl (honest_topkApply item k maxValue)
  | cmsIncr item n v x maxValue =>
    refine ⟨_, Prod.fst, Store.cmsIncr key item n v x maxValue, _, rfl, fun _ => rfl, ?_⟩
    intro env old
    unfold Store.cmsIncr
    split
    · exact .refused rfl
    · split
      · exact .refused rfl
      · exact .mutate (by decide) v rfl (honest_cmsApply item n)
  | vAdd member vec v x maxValue =>
    refine ⟨_, Prod.fst, Store.vAdd key member vec v x maxValue, _, rfl, fun _ => rfl, ?_⟩
    intro env old
    unfold Store.vAdd
    split
    · exact .refused rfl
    · exact .mutate (by decide) v rfl (honest_vsApply member vec maxValue)
  | xAdd payload v x maxValue autoTrim ms =>
    exact ⟨_, XAdded.applied, Store.xAdd key payload v x maxValue autoTrim ms, _, rfl, fun _ => rfl,
      fun _ _ => .mutate (by decide) v rfl (honest_sxApply payload maxValue autoTrim ms)⟩

end Outcomes

section Plans

variable {ρ : Type} {it : LruItem} {x : ℤ}

/-- If the plan reports its mutation as applied, its item is there, with this expiry. -/
def Recreates (it : LruItem) (x : ℤ) (applied : ρ → Bool) (plan : Plan LruItem ρ) : Prop :=
  ∀ still, applied (plan.ret still) = true →
    still = true ∧ ∃ it', plan.act.result (some it) = some it' ∧ it'.entry.expireAt = x

theorem recreates_of_refused {applied : ρ → Bool} {plan : Plan LruItem ρ}
    (h : ∀ still, applied (plan.ret still) = false) : Recreates it x applied plan := by
  intro still hstill
  rw [h still] at hstill
  simp at hstill

theorem Recreates.map {applied : ρ → Bool} {v : Verb LruItem ρ} {env : Env} {f : ρ → Ret}
    (hf : ∀ r, (f r).applied = applied r) (h : Recreates it x applied (v env (some it))) :
    Recreates it x Ret.applied (v.map f env (some it)) := by
  intro still hstill
  refine h still ?_
  rw [← hf]
  exact hstill

variable {env : Env} (hx : it.entry.expired env.now = false) (ht : it.entry.isTombstone = true)

include hx ht

theorem recreates_mutate {σ : Type} (K : Kind σ) (key : Bytes) (version : ℕ) (expireAt : ℤ)
    (stored : Option ℕ → ℕ) (f : σ → Option σ) :
    Recreates it expireAt id (K.mutate key version expireAt stored f env (some it)) := by
  simp only [Kind.mutate, hx, ht, Bool.false_eq_true, if_false, if_true]
  split
  · exact recreates_of_refused fun _ => rfl
  · unfold Kind.create
    split
    · exact recreates_of_refused fun _ => rfl
    · intro still hstill
      exact ⟨hstill, _, rfl, by rw [Kind.itemOf, K.entry_setSlot]; rfl⟩

theorem recreates_cIncr (key : Bytes) (delta : ℤ) (version : ℕ) (expireAt : ℤ) :
    Recreates it expireAt (fun c : ℤ × Bool × Bool => c.2.1)
      (cIncr key delta version expireAt env (some it)) := by
  simp only [cIncr, entry, hx, ht, Bool.false_eq_true, if_false, if_true]
  split
  · exact recreates_of_refused fun _ => rfl
  · intro still hstill
    refine ⟨?_, _, rfl, rfl⟩
    cases still with
    | true => rfl
    | false => simp at hstill

/-- Over a tombstone the plain modes write in place. -/
theorem InPlace.recreates {key : Bytes} {expireAt : ℤ} {applied : ρ → Bool} {plan : Plan LruItem ρ}
    (h : InPlace key expireAt applied env (some it) plan) :
    Recreates it (Entry.extend it.entry.expireAt expireAt) applied plan := by
  cases h with
  | refused h => exact recreates_of_refused fun _ => h
  | @mutate _ _ _ _ op hrefused hop =>
    simp only [mutatePlain, entry, hx, ht, Bool.false_eq_true, if_false, if_true]
    split
    · exact recreates_of_refused fun _ => hrefused
    · have hnew := hop none
      generalize op none = outcome at hnew
      cases hnew with
      | refuse h => exact recreates_of_refused fun _ => h
      | commit h =>
        intro still hstill
        exact ⟨(h still).symm.trans hstill, _, rfl, rfl⟩

theorem recreates_jSet (key path raw : Bytes) (version : ℕ) (expireAt maxValue : ℤ) :
    Recreates it (Entry.extend it.entry.expireAt expireAt) Prod.fst
      (jSet key path raw version expireAt maxValue env (some it)) := by
  unfold jSet
  split
  · simp only [hx, ht, Bool.false_eq_true, if_false, if_true]
    split
    · exact recreates_of_refused fun _ => rfl
    · split
      · exact recreates_of_refused fun _ => rfl
      · unfold jCommitReplace
        split
        · exact recreates_of_refused fun _ => rfl
        · intro still hstill
          exact ⟨hstill, _, rfl, rfl⟩
  · exact recreates_of_refused fun _ => rfl

/-- What each of the calls makes of a tombstone. -/
theorem Creator.recreates (c : Creator) (key : Bytes) :
    Recreates it (if c.inserts then c.expireAt else Entry.extend it.entry.expireAt c.expireAt)
      Ret.applied (c.call.verb key env (some it)) := by
  have hplain (hc : c.inPlace = true) : Recreates it
      (Entry.extend it.entry.expireAt c.expireAt) Ret.applied (c.call.verb key env (some it)) := by
    obtain ⟨ρ, applied, verb, f, heq, hf, hplan⟩ := c.exists_inPlace hc key
    rw [heq]
    exact ((hplan env (some it)).recreates hx ht).map hf
  cases c with
  | setAdd item v x => exact (recreates_mutate hx ht setKind key v x _ _).map fun _ => rfl
  | zAdd member score v x => exact (recreates_mutate hx ht zKind key v x _ _).map fun _ => rfl
  | geoAdd member p v x => exact (recreates_mutate hx ht gKind key v x _ _).map fun _ => rfl
  | hSet field value v x => exact (recreates_mutate hx ht hKind key v x _ _).map fun _ => rfl
  | lPush item v x => exact (recreates_mutate hx ht lKind key v x _ _).map fun _ => rfl
  | rPush item v x => exact (recreates_mutate hx ht lKind key v x _ _).map fun _ => rfl
  | cIncr delta v x => exact (recreates_cIncr hx ht key delta v x).map fun _ => rfl
  | jSet path raw v x maxValue =>
    exact (recreates_jSet hx ht key path raw v x maxValue).map fun _ => rfl
  | bSet | hllAdd | topkAdd | cmsIncr | vAdd | xAdd => exact hplain rfl

end Plans

theorem extend_eq_iff (old x : ℤ) : Entry.extend old x = x ↔ x ≠ 0 ∨ old = 0 := by
  unfold Entry.extend
  by_cases hx : x ≠ 0
  · simp [hx]
  · rw [if_neg hx]
    rw [not_not] at hx
    rw [hx]
    simp

/-- A value created over a tombstone ends when the call says, except where it is written
over the tombstone without an expiry of its own and the tombstone has one. -/
theorem recreated_expireAt_iff (m : Mem) (now : ℤ) (key : Bytes) (it : LruItem)
    (hit : m.lookup key = some it) (hx : it.entry.expired now = false)
    (ht : it.entry.isTombstone = true) (c : Creator)
    (happlied : (step m ⟨now, key, c.call⟩).2.applied = true) :
    ∃ it', (step m ⟨now, key, c.call⟩).1.lookup key = some it' ∧
      (it'.entry.expireAt = c.expireAt ↔
        c.inserts = true ∨ c.expireAt ≠ 0 ∨ it.entry.expireAt = 0) := by
  have hplan : Recreates it _ Ret.applied (c.call.verb key (m.env now) (some it)) :=
    c.recreates hx ht key
  rw [← hit] at hplan
  obtain ⟨hstill, it', hresult, hexpire⟩ := hplan _ happlied
  rw [hit] at hresult
  obtain ⟨it'', hit''⟩ := Option.isSome_iff_exists.mp hstill
  have hsame : it'' = it' := by
    rcases m.lookup_perform now key (c.call.verb key) key with heq | ⟨hnone, -⟩
    · rw [Memory.expected, if_pos rfl, hit, hresult] at heq
      exact Option.some.inj (hit''.symm.trans heq)
    · exact absurd (hit''.symm.trans hnone) (by simp)
  refine ⟨it'', hit'', ?_⟩
  rw [hsame, hexpire]
  cases c.inserts with
  | true => simp
  | false => simpa using extend_eq_iff it.entry.expireAt c.expireAt

def buried : Mem := (step (Memory.newMemory 0 10) ⟨0, [0x6B], .plain (.deleteIfVersion 1)⟩).1

/-- A set created over the tombstone gets a new item, which does not expire. -/
theorem recreated_expireAt_set :
    ∃ it', (step buried ⟨1, [0x6B], .cached (.setAdd [7] 2 0)⟩).1.lookup [0x6B] = some it' ∧
      it'.entry.expireAt = 0 := by
  obtain ⟨it', hit', hexpire⟩ := recreated_expireAt_iff buried 1 [0x6B]
    (LruItem.new ⟨[], 1, 10, flagTombstone⟩) rfl (by decide +kernel) (by decide +kernel)
    (.setAdd [7] 2 0) (by decide +kernel)
  exact ⟨it', hit', hexpire.mpr (.inl rfl)⟩

/-- A bitmap created over the tombstone without an expiry ends with it. -/
theorem recreated_inherits :
    let after := step buried ⟨1, [0x6B], .plain (.bSet 0 true 2 0 0)⟩
    after.2.applied = true ∧ (after.1.lookup [0x6B]).map (fun it => it.entry.expireAt) = some 10 ∧
      (after.1.lookup [0x6B]).map (fun it => it.entry.expired 10) = some true := by
  decide +kernel

end Supercache
