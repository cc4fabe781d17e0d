import Supercache.Recreate
import Supercache.Simulation

/-!
Mutations that are refused. The plain modes write nothing unless all checks pass. The JSON mode
may decode the document and keep it in the cache before it refuses; such an item answers every
call as before, as long as no other mode writes the bytes of an entry that is also JSON.
-/
namespace Supercache

open Wire Lru Store JsonText

/-- A JSON entry whose bytes no other mode writes. -/
def Sole (flags : ℕ) : Prop :=
  flags &&& flagJSON ≠ 0 → flags &&& flagBloom = 0 ∧ ∀ m : Mode, flags &&& m.kind.flag = 0

section Noting

def LruItem.note (it : LruItem) (doc : Json) : LruItem := { it with jCache := doc }

variable {it : LruItem} {σ : Type} {doc : Json}

/-- A mode that keeps its value elsewhere does not see a cached document. -/
theorem Kind.flushValue_note (K : Kind σ)
    (hslot : ∀ it doc, K.slot (LruItem.note it doc) = K.slot it)
    (hset : ∀ it s doc, K.setSlot (LruItem.note it doc) s = (K.setSlot it s).note doc)
    (it : LruItem) (doc : Json) :
    K.flushValue (it.note doc) = ((K.flushValue it).1.note doc, (K.flushValue it).2) := by
  have hpending : K.pending (it.note doc) = K.pending it := by
    unfold Kind.pending
    rw [hslot]
    rfl
  unfold Kind.flushValue
  rw [hpending]
  cases K.pending it with
  | none => rfl
  | some blob =>
    rw [hslot, ← hset]
    rfl

theorem Kind.jDirty_flushValue (K : Kind σ) (hset : ∀ it s, (K.setSlot it s).jDirty = it.jDirty)
    (it : LruItem) : (K.flushValue it).1.jDirty = it.jDirty := by
  unfold Kind.flushValue
  split
  · exact hset _ _
  · rfl

theorem flushJSONValue_of_clean (h : it.jDirty = false) : flushJSONValue it = (it, false) := by
  simp [flushJSONValue, h]

/-- While the document is not ahead of the bytes, flushing does not look at it. -/
theorem LruItem.flush_note (h : it.jDirty = false) (doc : Json) :
    (it.note doc).flush = (it.flush.1.note doc, it.flush.2) ∧ it.flush.1.jDirty = false := by
  have hset := setKind.flushValue_note (fun _ _ => rfl) fun _ _ _ => rfl
  have hz := zKind.flushValue_note (fun _ _ => rfl) fun _ _ _ => rfl
  have hg := gKind.flushValue_note (fun _ _ => rfl) fun _ _ _ => rfl
  have hl := lKind.flushValue_note (fun _ _ => rfl) fun _ _ _ => rfl
  have hh := hKind.flushValue_note (fun _ _ => rfl) fun _ _ _ => rfl
  -- what is left once the five modes have written their bytes
  have hclean : (hKind.flushValue (lKind.flushValue (gKind.flushValue (zKind.flushValue
      (setKind.flushValue it).1).1).1).1).1.jDirty = false := by
    rw [hKind.jDirty_flushValue fun _ _ => rfl, lKind.jDirty_flushValue fun _ _ => rfl,
      gKind.jDirty_flushValue fun _ _ => rfl, zKind.jDirty_flushValue fun _ _ => rfl,
      setKind.jDirty_flushValue fun _ _ => rfl, h]
  have hnoted : ∀ {it : LruItem}, it.jDirty = false → (it.note doc).jDirty = false := id
  simp only [LruItem.flush, hset, hz, hg, hl, hh]
  rw [flushJSONValue_of_clean hclean, flushJSONValue_of_clean (hnoted hclean)]
  exact ⟨rfl, hclean⟩

/-- A JSON entry that is nothing else has nothing to write out. -/
theorem Sole.settled (h : Sole it.entry.flags) (hclean : it.jDirty = false)
    (hjson : it.entry.has flagJSON = true) : it.Settled := by
  have hnone : ∀ m : Mode, m.kind.pending it = none := by
    intro m
    refine m.kind.pending_of_not_has ?_
    simp [Entry.has, (h (by simpa [Entry.has] using hjson)).2 m]
  exact ⟨hnone .set, hnone .zset, hnone .geo, hnone .list, hnone .hash, by rw [hclean]; rfl⟩

/-- The first item is the second, perhaps with the document of its bytes cached. What
`strict` adds is needed where other calls follow. -/
inductive Noted (strict : Prop) : LruItem → LruItem → Prop
  | same (it : LruItem) : Noted strict it it
  | noted (it : LruItem) (doc : Json) (hclean : it.jDirty = false)
    (hdoc : it.entry.has flagJSON = true →
      it.jCache = .null ∧ JsonX.decode it.entry.value = some doc)
    (hsole : strict → Sole it.entry.flags) : Noted strict (it.note doc) it

namespace Noted

variable {strict : Prop} {a b : LruItem}

theorem entry_eq (h : Noted strict a b) : b.entry = a.entry := by
  cases h <;> rfl

theorem strengthen (h : Noted False a b) (hsole : strict → Sole b.entry.flags) :
    Noted strict a b := by
  cases h with
  | same => exact .same _
  | noted _ doc hclean hdoc => exact .noted b doc hclean hdoc hsole

/-- Where the entry is not JSON, any document may be left in the cache. -/
theorem of_not_json {it : LruItem} (doc : Json) (hclean : it.jDirty = false)
    (h : it.entry.flags &&& flagJSON = 0) : Noted strict (it.note doc) it := by
  refine .noted it doc hclean (fun hjson => ?_) (fun _ hjson => absurd h hjson)
  simp [Entry.has, h] at hjson

variable (h : Noted strict a b)
include h

theorem slot_eq (m : Mode) : m.kind.slot b = m.kind.slot a := by
  cases h with
  | same => rfl
  | noted => cases m <;> rfl

theorem setSlot (m : Mode) (s : Slot m.Value) :
    Noted strict (m.kind.setSlot a s) (m.kind.setSlot b s) := by
  cases h with
  | same => exact .same _
  | noted _ doc hclean hdoc hsole =>
    have hnote : m.kind.setSlot (b.note doc) s = (m.kind.setSlot b s).note doc := by
      cases m <;> rfl
    rw [hnote]
    refine .noted _ doc ?_ ?_ ?_
    · rw [m.jDirty_setSlot, hclean]
    · rwa [m.kind.entry_setSlot, m.jCache_setSlot]
    · rwa [m.kind.entry_setSlot]

theorem put (e : Entry) (he : e.flags &&& flagJSON = 0) :
    Noted strict { a with entry := e } { b with entry := e } := by
  cases h with
  | same => exact .same _
  | noted _ doc hclean =>
    change Noted strict (LruItem.note { b with entry := e } doc) _
    exact of_not_json doc hclean he

theorem flush (hstrict : strict) : Noted strict a.flush.1 b.flush.1 := by
  cases h with
  | same => exact .same _
  | noted _ doc hclean hdoc hsole =>
    obtain ⟨hflush, hdirty⟩ := LruItem.flush_note hclean doc
    rw [hflush]
    by_cases hjson : b.entry.has flagJSON = true
    · rw [((hsole hstrict).settled hclean hjson).flush]
      exact .noted b doc hclean hdoc hsole
    · obtain ⟨blob, hentry⟩ := b.entry_flush
      refine of_not_json doc hdirty ?_
      rw [hentry]
      simpa [Entry.has] using hjson

theorem flush_eq :
    b.flush.1.entry = a.flush.1.entry ∧ b.flush.2 = a.flush.2 := by
  cases h with
  | same => exact ⟨rfl, rfl⟩
  | noted _ doc hclean hdoc hsole =>
    rw [(LruItem.flush_note hclean doc).1]
    exact ⟨rfl, rfl⟩

end Noted

def noting (strict : Prop) : Likeness LruItem LruItem where
  R := Noted strict
  Q a b := b.entry = a.entry ∧ (strict → Noted strict a b)
  spent _ _ _ := False
  same h := ⟨h.entry_eq, fun _ => h⟩
  entry {a b} h := ⟨a.entry.value, h.entry_eq⟩
  value h _ _ _ := congrArg Entry.value h.entry_eq
  fresh e := ⟨rfl, fun _ => .same _⟩
  put h e hflags := ⟨rfl, fun _ => h.put e hflags.json⟩
  bits {a b} h hbloom value := by
    refine ⟨rfl, fun hstrict => ?_⟩
    cases h with
    | same => exact .same _
    | noted _ doc hclean hdoc hsole =>
      refine (Noted.noted b doc hclean hdoc hsole).put _ ?_
      have hbits : b.entry.has flagBloom = true := hbloom
      by_contra hjson
      exact absurd (hsole hstrict hjson).1 (by simpa [Entry.has] using hbits)
  touch {a b} h key front := by
    obtain ⟨hentry, hflushed⟩ := h.flush_eq
    rw [touch_eq key a, touch_eq key b, show (Stored.flush b).2 = (Stored.flush a).2 from hflushed,
      show Stored.entry (Stored.flush b).1 = Stored.entry (Stored.flush a).1 from hentry]
    split
    · exact .write _ _ _ _ ⟨hentry, h.flush⟩
    · exact .amend _ _ _ ⟨hentry, h.flush⟩
  flush h := h.flush_eq.1

theorem noting_carries (strict : Prop) (m : Mode) :
    (noting strict).Carries (lazily.slot m) (lazily.slot m) where
  flag := rfl
  new := rfl
  encode := rfl
  decode := rfl
  load {a b} h _ := by
    change m.kind.load b = m.kind.load a
    rw [Kind.load, h.slot_eq m, h.entry_eq]
    rfl
  note {a b} _ h _ s hload := by
    simp only [lazily, Kind.lazy, h.slot_eq m]
    cases (m.kind.slot a).cache with
    | some _ => exact .keep
    | none => exact .amend _ _ _ ((noting strict).same (h.setSlot m _))
  commit {a b} _ h _ key s version expireAt := by
    refine .write _ _ _ _ ((noting strict).same (Noted.setSlot ?_ m _))
    rw [h.entry_eq]
    exact h.put _ m.flag_and_json
  item e s := ⟨rfl, fun _ => .same _⟩

theorem jDoc_of_null (hclean : it.jDirty = false) (hnull : it.jCache = .null)
    (hdecode : JsonX.decode it.entry.value = some doc) : jDoc it = some (doc, it.note doc) := by
  unfold jDoc
  rw [if_neg (by simp [hclean]), hnull]
  simp only [hdecode]
  rfl

/-- An item that has cached its document answers as one that decodes it now. -/
theorem jDoc_note (hclean : it.jDirty = false) (hdecode : JsonX.decode it.entry.value = some doc) :
    jDoc (it.note doc) = some (doc, it.note doc) := by
  by_cases hdoc : doc = .null
  · subst hdoc
    have hnull : (it.note .null).jCache = .null := rfl
    exact jDoc_of_null hclean hnull hdecode
  · have hcached : (it.note doc).jCache = doc := rfl
    unfold jDoc
    rw [if_neg (by simp [LruItem.note, hclean])]
    split
    next hnull =>
      exact absurd (hcached.symm.trans hnull) hdoc
    · rfl

theorem noting_carriesDoc (strict : Prop) : (noting strict).CarriesDoc lazily.doc lazily.doc where
  clean h _ := by cases h <;> rfl
  value h _ _ := congrArg Entry.value h.entry_eq
  doc {a b} h hjson := by
    cases h with
    | same =>
      cases lazily.doc.doc a with
      | none => exact .none
      | some p => exact .some ⟨rfl, .same _⟩
    | noted _ doc hclean hdoc =>
      obtain ⟨hnull, hdecode⟩ := hdoc hjson
      rw [show lazily.doc.doc b = _ from jDoc_of_null hclean hnull hdecode,
        show lazily.doc.doc (b.note doc) = _ from jDoc_note hclean hdecode]
      exact .some ⟨rfl, .same _⟩
  replaced {a b} h doc version expireAt := by
    have heq : lazily.doc.replaced b doc version expireAt =
        lazily.doc.replaced a doc version expireAt := by
      cases h <;> rfl
    rw [heq]
    exact ⟨⟨rfl, fun _ => .same _⟩, rfl⟩
  item e doc := ⟨rfl, fun _ => .same _⟩

theorem noting_matches (strict : Prop) : (noting strict).Matches lazily lazily :=
  ⟨noting_carries strict, noting_carriesDoc strict⟩

end Noting

def Creator.checks : Creator → Bool
  | cIncr .. | jSet .. | bSet .. | topkAdd .. | cmsIncr .. | vAdd .. | xAdd .. => true
  | _ => false

section Plans

variable {ρ : Type} {it : LruItem} {now : ℤ}

/-- The plan does nothing, keeps the document of the item in its cache, or writes an item
that eviction spares and says so. -/
inductive Decisive (it : LruItem) (now : ℤ) (applied : ρ → Bool) : Plan LruItem ρ → Prop
  | idle (tally : Tally) (ret : Bool → ρ) : Decisive it now applied ⟨.keep, tally, ret⟩
  | noted (it' : LruItem) (tally : Tally) (ret : Bool → ρ) (h : Noted False it' it) :
    Decisive it now applied ⟨.amend it' false, tally, ret⟩
  | wrote (plan : Plan LruItem ρ) (it' : LruItem) (hresult : plan.act.result (some it) = some it')
    (hpin : it'.entry.pinned now = true) (h : applied (plan.ret true) = true) :
    Decisive it now applied plan

variable {applied : ρ → Bool} {expireAt : ℤ} {e : Entry} {flag : ℕ} {it' : LruItem}

theorem decisive_skip (r : ρ) : Decisive it now applied (.skip r) :=
  .idle _ _

theorem decisive_stale (r : ρ) : Decisive it now applied (.stale r) :=
  .idle _ _

theorem Decisive.map {v : Verb LruItem ρ} {env : Env} {f : ρ → Ret}
    (hf : ∀ r, (f r).applied = applied r) (h : Decisive it now applied (v env (some it))) :
    Decisive it now Ret.applied (v.map f env (some it)) := by
  unfold Verb.map
  generalize v env (some it) = plan at h
  cases h with
  | idle tally ret => exact .idle _ _
  | noted it' tally ret h => exact .noted it' _ _ h
  | wrote _ it' hresult hpin h => exact .wrote _ it' hresult hpin ((hf _).trans h)

theorem pinned_of_lasts (hflag : e.flags ∈ Entry.pinnedFlags)
    (hlasts : Entry.Lasts (now + 1) e.expireAt) : e.pinned now = true := by
  have hself : ∀ flag ∈ Entry.pinnedFlags, (flag &&& flag != 0) = true := by decide
  exact Entry.pinned_of_flags hflag (hself _ hflag) (Entry.expired_of_lasts hlasts (by omega))

variable {env : Env} (hx : it.entry.expired env.now = false)

include hx

/-- What is written over an unexpired entry is not evicted at once. -/
theorem decisive_writeOver (hflag : flag ∈ Entry.pinnedFlags) (key blob : Bytes)
    (hlasts : Entry.Lasts (env.now + 1) expireAt) (mode : WriteMode) {r : Bool → ρ}
    (h : applied (r true) = true) :
    Decisive it env.now applied ⟨writeOver key it blob flag expireAt mode, .quiet, r⟩ :=
  .wrote _ _ rfl (pinned_of_lasts hflag ((Entry.lasts_of_not_expired hx).extend hlasts)) h

theorem InPlace.decisive {key : Bytes} {plan : Plan LruItem ρ}
    (h : InPlace key expireAt applied env (some it) plan)
    (hlasts : Entry.Lasts (env.now + 1) expireAt) : Decisive it env.now applied plan := by
  cases h with
  | refused => exact decisive_skip _
  | @mutate _ hflag _ _ op _ hop =>
    simp only [mutatePlain, Stored.entry, hx, Bool.false_eq_true, if_false]
    split
    · split
      · exact decisive_stale _
      · have hnew := hop none
        generalize op none = outcome at hnew ⊢
        cases hnew with
        | refuse h => exact decisive_skip _
        | commit h => exact decisive_writeOver hx hflag key _ hlasts _ (h true)
    · split
      · have hcur := hop (some it.entry.value)
        generalize op (some it.entry.value) = outcome at hcur ⊢
        cases hcur with
        | refuse h => exact decisive_skip _
        | commit h => exact decisive_writeOver hx hflag key _ hlasts _ (h true)
      · exact decisive_skip _

theorem decisive_cIncr (key : Bytes) (delta : ℤ) (version : ℕ)
    (hlasts : Entry.Lasts (env.now + 1) expireAt) :
    Decisive it env.now (fun c : ℤ × Bool × Bool => c.2.1)
      (cIncr key delta version expireAt env (some it)) := by
  have hflag : flagCounter ∈ Entry.pinnedFlags := by decide
  simp only [cIncr, Stored.entry, hx, Bool.false_eq_true, if_false]
  split
  · split
    · exact decisive_stale _
    · exact .wrote _ _ rfl (pinned_of_lasts hflag hlasts) rfl
  · split
    · exact decisive_skip _
    · split
      · exact decisive_skip _
      · split
        · exact decisive_skip _
        · exact decisive_writeOver hx hflag key _ hlasts _ rfl

theorem decisive_jCommitReplace (hnoted : Noted False it' it) (key : Bytes) (doc : Json)
    (stored : ℕ) (hlasts : Entry.Lasts (env.now + 1) expireAt) (maxValue : ℤ) :
    Decisive it env.now Prod.fst (jCommitReplace key it' doc stored expireAt maxValue) := by
  have hflag : flagJSON ∈ Entry.pinnedFlags := by decide
  unfold jCommitReplace
  split
  · exact .noted it' _ _ hnoted
  · refine .wrote _ _ rfl (pinned_of_lasts hflag ?_) rfl
    have hentry : it'.entry = it.entry := hnoted.entry_eq.symm
    refine Entry.Lasts.extend ?_ hlasts
    rw [hentry]
    exact Entry.lasts_of_not_expired hx

omit hx in
/-- Looking at the document leaves it in the cache and nothing else. -/
theorem noted_jDoc {doc : Json} (h : jDoc it = some (doc, it')) : Noted False it' it := by
  obtain ⟨rfl, rfl | ⟨hclean, hnull, hdecode⟩⟩ := jDoc_spec h
  · exact .same it
  · exact .noted it doc hclean (fun _ => ⟨hnull, hdecode⟩) False.elim

theorem decisive_jSet (key path raw : Bytes) (version : ℕ)
    (hlasts : Entry.Lasts (env.now + 1) expireAt) (maxValue : ℤ) : Decisive it env.now Prod.fst
      (jSet key path raw version expireAt maxValue env (some it)) := by
  unfold jSet
  split
  · simp only [hx, Bool.false_eq_true, if_false]
    split
    · split
      · exact decisive_stale _
      · split
        · exact decisive_skip _
        · exact decisive_jCommitReplace hx (.same it) key _ _ hlasts maxValue
    · split
      · exact decisive_skip _
      · rcases hdoc : jDoc it with _ | ⟨_, _⟩
        · dsimp only
          exact decisive_skip _
        · dsimp only
          split
          · exact .noted _ _ _ (noted_jDoc hdoc)
          · exact decisive_jCommitReplace hx (noted_jDoc hdoc) key _ _ hlasts maxValue
  · exact decisive_skip _

/-- Each of the calls that check before they write. -/
theorem Creator.decisive (c : Creator) (hc : c.checks = true) (key : Bytes)
    (hlasts : Entry.Lasts (env.now + 1) c.expireAt) :
    Decisive it env.now Ret.applied (c.call.verb key env (some it)) := by
  have hplain (hc : c.inPlace = true) :
      Decisive it env.now Ret.applied (c.call.verb key env (some it)) := by
    obtain ⟨ρ, applied, verb, f, heq, hf, hplan⟩ := c.exists_inPlace hc key
    rw [heq]
    exact ((hplan env (some it)).decisive hx hlasts).map hf
  cases c with
  | setAdd | zAdd | geoAdd | hSet | lPush | rPush | hllAdd => simp [Creator.checks] at hc
  | cIncr delta v x => exact (decisive_cIncr hx key delta v hlasts).map fun _ => rfl
  | jSet path raw v x maxValue =>
    exact (decisive_jSet hx key path raw v hlasts maxValue).map fun _ => rfl
  | bSet | topkAdd | cmsIncr | vAdd | xAdd => exact hplain rfl

end Plans

/-- What a refused call leaves is the store as it was but for a cached document. -/
theorem alike_of_refused {m : Mem} {now : ℤ} {key : Bytes} {it : LruItem}
    (hit : m.lookup key = some it) {v : Verb LruItem Ret}
    (hplan : Decisive it now Ret.applied (v (m.env now) (some it)))
    (hrefused : (m.perform now key v).2.applied = false) {strict : Prop}
    (hsole : strict → Sole it.entry.flags) : (m.perform now key v).1.Alike (Noted strict) m := by
  have hcache : (m.perform now key v).1.cache =
      m.cache.exec (fun a => a.entry.pinned now) (v (m.env now) (some it)).act key := by
    rw [← hit]
    rfl
  have hret : (m.perform now key v).2 =
      (v (m.env now) (some it)).ret ((m.perform now key v).1.lookup key).isSome := by
    rw [← hit]
    rfl
  have hresult : m.expected now key v key = (v (m.env now) (some it)).act.result (some it) := by
    rw [Memory.expected, if_pos rfl, hit]
  have hlike : ∀ act : Act LruItem, Act.Like (Noted strict) (fun _ => False) (m.cache.lookup key)
      act .keep → (m.cache.exec (fun a => a.entry.pinned now) act key).Alike (Noted strict)
        m.cache := by
    intro act hact
    exact (m.wf.alike_self Noted.same).exec hact (fun _ => False.elim)
      fun a b h => congrArg (Entry.pinned now) h.entry_eq
  generalize v (m.env now) (some it) = plan at hplan hcache hret hresult
  cases hplan with
  | idle tally ret =>
    refine ⟨?_, rfl⟩
    rw [hcache]
    exact hlike _ .keep
  | noted it' tally ret h =>
    refine ⟨?_, rfl⟩
    rw [hcache]
    exact hlike _ (.noted it' it hit (h.strengthen hsole))
  | wrote _ it' hwrote hpin h =>
    -- an item that is spared is still there, and then the call says that it was applied
    have hthere := m.lookup_perform_of_pinned (hresult.trans hwrote) hpin
    rw [hret, hthere] at hrefused
    exact absurd (h.symm.trans hrefused) (by simp)

/-- What `AcceptNegative` answers depends on the entry alone. -/
theorem ret_acceptNegative_congr (key : Bytes) (e : Entry) (env : Env) {old old' : Option LruItem}
    (h : old'.map LruItem.entry = old.map LruItem.entry) (still still' : Bool) :
    (acceptNegative key e env old').ret still' = (acceptNegative key e env old).ret still := by
  cases old with
  | none =>
    rw [Option.map_none, Option.map_eq_none_iff] at h
    simp only [h, acceptNegative]
    split_ifs <;> rfl
  | some a =>
    obtain ⟨a', ha', heq⟩ := Option.map_eq_some_iff.mp h
    subst ha'
    simp only [acceptNegative, Stored.entry, heq]
    split_ifs <;> rfl

theorem Call.pure_or_acceptNegative (c : Call) :
    c.Pure ∨ ∃ e, c = .plain (.acceptNegative e) := by
  cases c with
  | cached c => exact .inl trivial
  | plain c =>
    cases c with
    | acceptNegative e => exact .inr ⟨e, rfl⟩
    | _ => exact .inl trivial

/-- A call of these that is refused leaves every entry and the byte total as they were, and
every call that follows gives the answer it would have given before. Further calls after
that one do too, unless the entry is JSON and of another mode at once. -/
theorem refused_unchanged (m : Mem) (now : ℤ) (key : Bytes) (it : LruItem)
    (hit : m.lookup key = some it) (hx : it.entry.expired now = false) (c : Creator)
    (hc : c.checks = true) (hexpire : c.expireAt = 0 ∨ now < c.expireAt) (m' : Mem) (r : Ret)
    (hstep : step m ⟨now, key, c.call⟩ = (m', r)) (hrefused : r.applied = false) :
    (∀ k, (m'.lookup k).map LruItem.entry = (m.lookup k).map LruItem.entry) ∧
      m'.cache.bytes = m.cache.bytes ∧
      (∀ op : Op, (step m' op).2 = (step m op).2) ∧
      (Sole it.entry.flags → ∀ ops : List Op, (∀ op ∈ ops, op.call.Pure) →
        answers m' ops = answers m ops) := by
  have hlasts : Entry.Lasts ((m.env now).now + 1) c.expireAt := by
    rcases hexpire with hzero | hlate
    · exact .inl hzero
    · exact .inr hlate
  have hm' : (m.perform now key (c.call.verb key)).1 = m' := congrArg Prod.fst hstep
  have hr : (m.perform now key (c.call.verb key)).2.applied = false := by
    rw [show (m.perform now key (c.call.verb key)).2 = r from congrArg Prod.snd hstep]
    exact hrefused
  have halike : ∀ strict : Prop, (strict → Sole it.entry.flags) → m'.Alike (Noted strict) m := by
    intro strict hsole
    rw [← hm']
    exact alike_of_refused hit (c.decisive hx hc key hlasts) hr hsole
  have hnever : ∀ strict : Prop, ∀ key a cost, ¬ (noting strict).spent key a cost :=
    fun _ _ _ _ h => h
  have hentries : ∀ k, (m'.lookup k).map LruItem.entry = (m.lookup k).map LruItem.entry := by
    intro k
    have hrel := (halike False False.elim).lookup k
    generalize m'.lookup k = a at hrel ⊢
    generalize m.lookup k = b at hrel ⊢
    cases hrel with
    | none => rfl
    | some h => exact congrArg some h.entry_eq.symm
  refine ⟨hentries, (halike False False.elim).cache.bytes_eq.symm, fun op => ?_,
    fun hsole ops hpure => ?_⟩
  · rcases op.call.pure_or_acceptNegative with hpure | ⟨e, hcall⟩
    · exact ((noting False).step_ret_eq (hnever False) (noting_matches False)
        (fun _ _ h => h.entry_eq) (fun _ _ h => h.1)
        (fun _ _ now h => congrArg (Entry.pinned now) h) (halike False False.elim) op hpure).1.symm
    · simp only [step, hcall, Memory.perform_ret, (halike False False.elim).env_eq op.now]
      exact congrArg Ret.bool (ret_acceptNegative_congr op.key e _ (hentries op.key) _ _)
  · exact ((noting True).answers_eq (fun _ _ h => h.2 trivial) (hnever True) (noting_matches True)
      ops hpure (halike True fun _ => hsole)).symm

def replicated : Mem :=
  (step (Memory.newMemory 0 10)
    ⟨0, [0x6B], .plain (.acceptIfNewer ⟨[0x5B, 0x31, 0x5D], 1, 0, flagJSON⟩)⟩).1

def overLimitSet : Creator := .jSet [0x24, 0x5B, 0x30, 0x5D] [0x32, 0x33] 2 0 3

/-- A document that would outgrow its limit. -/
theorem refused_unchanged_json :
    (step (step replicated ⟨1, [0x6B], overLimitSet.call⟩).1 ⟨2, [0x6B], .plain .get⟩).2 =
      (step replicated ⟨2, [0x6B], .plain .get⟩).2 :=
  (refused_unchanged replicated 1 [0x6B] (LruItem.new ⟨[0x5B, 0x31, 0x5D], 1, 0, flagJSON⟩) rfl
    (by decide +kernel) overLimitSet rfl (.inl rfl) _ _ rfl (by decide +kernel)).2.2.1 _

/-- The document over what is left of a set: its members are still to be written out, and
the negative entry that came over the tombstone carries the flags of both modes. -/
def mixed : Mem :=
  run (Memory.newMemory 0 10)
    [⟨0, [0x6B], .cached (.setAdd [7] 1 0)⟩, ⟨0, [0x6B], .cached (.setAdd [8] 2 0)⟩,
      ⟨0, [0x6B], .plain (.deleteIfVersion 3)⟩,
      ⟨0, [0x6B], .plain (.acceptNegative
        ⟨[0x5B, 0x31, 0x5D], 4, 0, flagNegative + flagSet + flagJSON⟩)⟩]

/-- After the refused call the cached document outlives the bytes it was decoded from. -/
theorem refused_mixed :
    let after := step mixed ⟨1, [0x6B], overLimitSet.call⟩
    let first (m : Mem) := ((step m ⟨2, [0x6B], .plain .get⟩).1.perform 3 [0x6B]
      (jGet [0x24, 0x5B, 0x30, 0x5D])).2
    (mixed.lookup [0x6B]).map (fun it => it.entry.expired 1) = some false ∧
      after.2.applied = false ∧ first after.1 = some [0x31] ∧ first mixed = none := by
  decide +kernel

end Supercache
