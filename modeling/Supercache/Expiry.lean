import Supercache.Recreate
import Supercache.StaleCaches

/-!
Expired entries. An expired item stays in the list until a call comes across it, and every call
then does what it would do without the item. A negative entry and a tombstone are written over it
in place; the decoded values it had cached stay beside them and are never read again.
-/
namespace Supercache

open Wire Lru Store JsonText

section Plans

variable {ρ τ σ : Type}

/-- The plan for the expired item `a` against the plan without an item: both do nothing, or
they answer alike and leave twins. -/
inductive Plan.Lapsed (a : LruItem) (p p' : Plan LruItem ρ) : Prop
  | idle (r : ρ) (hp : p = .skip r) (hp' : p' = .skip r)
  | met (hret : p'.ret = p.ret)
    (hresult : Option.Rel Twin (p.act.result (some a)) (p'.act.result none))

theorem Plan.lapsed_skip (a : LruItem) (r : ρ) : Plan.Lapsed a (.skip r) (.skip r) :=
  .idle r rfl rfl

/-- The item is unlinked on the way. -/
theorem Plan.lapsed_drop (a : LruItem) (r : ρ) : Plan.Lapsed a (.drop r) (.skip r) :=
  .met rfl .none

/-- A plan that unlinks the item, or puts a new element in its place. -/
theorem Plan.lapsed_same {a : LruItem} {p : Plan LruItem ρ}
    (h : p.act.result (some a) = p.act.result none) : Plan.Lapsed a p p := by
  refine .met rfl ?_
  rw [h]
  cases p.act.result none with
  | none => exact .none
  | some b => exact .some (.refl b)

def Lapses (v : Verb LruItem ρ) : Prop :=
  ∀ (env : Env) (a : LruItem), a.entry.expired env.now = true →
    Plan.Lapsed a (v env (some a)) (v env none)

theorem Lapses.map {v : Verb LruItem ρ} (h : Lapses v) (f : ρ → τ) : Lapses (v.map f) := by
  intro env a hx
  cases h env a hx with
  | idle r hp hp' =>
    refine .idle (f r) ?_ ?_
    · simp only [Verb.map, hp, Plan.skip]
    · simp only [Verb.map, hp', Plan.skip]
  | met hret hresult =>
    refine .met ?_ hresult
    simp only [Verb.map, hret]

section KeyValue

variable (key : Bytes)

theorem lapses_get : Lapses (Store.get key) := by
  intro env a hx
  simp only [Store.get, Stored.entry, hx, if_true]
  exact .met rfl .none

theorem lapses_peek : Lapses (Store.peek key) := by
  intro env a hx
  simp only [Store.peek, Stored.entry, hx, if_true]
  exact Plan.lapsed_drop a none

theorem lapses_peekVersion : Lapses Store.peekVersion := by
  intro env a hx
  rw [peekVersion_of_expired env a hx]
  exact Plan.lapsed_drop a none

theorem lapses_set (e : Entry) : Lapses (Store.set key e) := by
  intro env a hx
  simp only [Store.set]
  split
  · exact Plan.lapsed_skip a false
  · exact .met rfl (.some (.refl _))

theorem lapses_acceptIfNewer (e : Entry) : Lapses (Store.acceptIfNewer key e) := by
  intro env a hx
  simp only [Store.acceptIfNewer, Stored.entry, hx, Bool.not_true, Bool.false_eq_true, false_and,
    if_false]
  split
  · exact Plan.lapsed_skip a false
  · exact .met rfl (.some (.refl _))

/-- The negative entry is written over the expired one, whose cached values stay. -/
theorem lapses_acceptNegative {e : Entry} (he : Uncached e.flags) :
    Lapses (Store.acceptNegative key e) := by
  intro env a hx
  simp only [Store.acceptNegative, Stored.entry, hx, if_true]
  split
  · exact Plan.lapsed_skip a false
  · exact .met rfl (.some (.of_uncached rfl he))

/-- So is the tombstone. -/
theorem lapses_deleteIfVersion (version : ℕ) : Lapses (Store.deleteIfVersion key version) := by
  intro env a hx
  have hflags : Uncached (tombstone env version).flags :=
    uncached_of_mem (show flagTombstone ∈ _ by decide)
  simp only [Store.deleteIfVersion, Stored.entry, hx, Bool.not_true, Bool.false_eq_true, false_and,
    if_false]
  exact .met rfl (.some (.of_uncached rfl hflags))

end KeyValue

section Plain

variable {flag : ℕ} (key : Bytes)

theorem lapses_readLive (miss : ρ) (f : Entry → ρ) : Lapses (readLive flag miss f) := by
  intro env a hx
  simp only [readLive, Stored.entry, hx, if_true]
  exact Plan.lapsed_drop a miss

theorem lapses_plainInstall (gate : Entry → Option Tally) (blob : Bytes) (version : ℕ)
    (expireAt : ℤ) : Lapses (plainInstall gate flag key blob version expireAt) := by
  intro env a hx
  simp only [plainInstall, Stored.entry, hx, if_true]
  exact Plan.lapsed_same rfl

theorem lapses_mutatePlain (version : ℕ) (expireAt : ℤ) (refused : ρ)
    (op : Option Bytes → Outcome ρ) :
    Lapses (mutatePlain flag key version expireAt refused op) := by
  intro env a hx
  simp only [mutatePlain, Stored.entry, hx, if_true]
  split
  · exact Plan.lapsed_same rfl
  · exact Plan.lapsed_same rfl

theorem lapses_removePlain (version : ℕ) (expireAt : ℤ) (op : Bytes → Option Bytes) :
    Lapses (removePlain flag key version expireAt op) := by
  intro env a hx
  simp only [removePlain, Stored.entry, hx, if_true]
  exact Plan.lapsed_drop a true

theorem lapses_cIncr (delta : ℤ) (version : ℕ) (expireAt : ℤ) :
    Lapses (Store.cIncr key delta version expireAt) := by
  intro env a hx
  simp only [Store.cIncr, Stored.entry, hx, if_true]
  exact Plan.lapsed_same rfl

theorem lapses_bloomMutate (m k version : ℕ) (expireAt : ℤ) (f : Bloom.Filter → Bloom.Filter) :
    Lapses (bloomMutate key m k version expireAt f) := by
  intro env a hx
  simp only [bloomMutate, Stored.entry, hx, if_true]
  split
  · exact Plan.lapsed_same rfl
  · exact Plan.lapsed_same rfl

end Plain

section Carrier

variable (C : Carrier LruItem σ) (key : Bytes)

section

variable (version : ℕ) (expireAt : ℤ) (stored : Option ℕ → ℕ) (f : σ → Option σ)

theorem Carrier.lapses_mutate : Lapses (C.mutate key version expireAt stored f) := by
  intro env a hx
  simp only [Carrier.mutate, Stored.entry, hx, if_true]
  unfold Carrier.create
  split <;> exact Plan.lapsed_same rfl

theorem Carrier.lapses_removeVerb : Lapses (C.removeVerb key version expireAt stored f) := by
  intro env a hx
  simp only [Carrier.removeVerb, Stored.entry, hx, if_true]
  exact Plan.lapsed_drop a true

end

theorem Carrier.lapses_read (miss : ρ) (f : σ → ρ) : Lapses (C.read miss f) := by
  intro env a hx
  simp only [Carrier.read, Stored.entry, hx, if_true]
  exact Plan.lapsed_drop a miss

theorem Carrier.lapses_install (gate : Entry → Option Tally) (blob : Bytes) (version : ℕ)
    (expireAt : ℤ) : Lapses (C.install gate key blob version expireAt) := by
  intro env a hx
  simp only [Carrier.install, Stored.entry, hx, if_true]
  split
  · exact Plan.lapsed_same rfl
  · exact Plan.lapsed_same rfl

theorem Carrier.lapses_pop (version : ℕ) (expireAt : ℤ) (take : σ → Option (Bytes × σ)) :
    Lapses (C.pop key version expireAt take) := by
  intro env a hx
  simp only [Carrier.pop, Stored.entry, hx, if_true]
  exact Plan.lapsed_drop a (none, true)

end Carrier

section Document

variable (D : DocCarrier LruItem) (key : Bytes)

theorem DocCarrier.lapses_set (path raw : Bytes) (version : ℕ) (expireAt maxValue : ℤ) :
    Lapses (D.set key path raw version expireAt maxValue) := by
  intro env a hx
  simp only [DocCarrier.set, DocCarrier.commitInsert, Stored.entry, hx, if_true]
  split
  · split
    · exact Plan.lapsed_same rfl
    · split
      · exact Plan.lapsed_same rfl
      · exact Plan.lapsed_same rfl
  · exact Plan.lapsed_skip a (false, false)

theorem DocCarrier.lapses_del (path : Bytes) (version : ℕ) (expireAt : ℤ) :
    Lapses (D.del key path version expireAt) := by
  intro env a hx
  simp only [DocCarrier.del, Stored.entry, hx, if_true]
  exact Plan.lapsed_drop a (true, false)

theorem DocCarrier.lapses_get (path : Bytes) : Lapses (D.get path) := by
  intro env a hx
  simp only [DocCarrier.get, Stored.entry, hx, if_true]
  exact Plan.lapsed_drop a none

theorem DocCarrier.lapses_install (blob : Bytes) (version : ℕ) (expireAt : ℤ) :
    Lapses (D.install key blob version expireAt) := by
  intro env a hx
  simp only [DocCarrier.install, Stored.entry, hx, if_true]
  split
  · exact Plan.lapsed_skip a false
  · exact Plan.lapsed_same rfl

end Document

end Plans

section Table

variable (key : Bytes)

theorem PlainForm.lapses {ρ : Type} {v : (α : Type) → [Stored α] → Verb α ρ}
    (h : PlainForm key v) : Lapses (v LruItem) := by
  induction h with
  | skip r => exact fun env a _ => Plan.lapsed_skip a r
  | readLive _ _ miss f => exact lapses_readLive miss f
  | install _ _ blob v x => exact lapses_plainInstall key _ blob v x
  | cIncr delta v x => exact lapses_cIncr key delta v x
  | bloom m k v x => exact lapses_bloomMutate key m k v x _
  | mutate _ v x refused op => exact lapses_mutatePlain key v x refused op
  | remove _ v x op => exact lapses_removePlain key v x op
  | map f _ ih => exact ih.map f
  | ite c _ _ ihv ihw =>
    intro env a hx
    split
    · exact ihv env a hx
    · exact ihw env a hx

theorem PlainCall.lapses (c : PlainCall) (hpure : c.Pure) (hc : c ≠ .delete) :
    Lapses (c.verb key : Verb LruItem Ret) := by
  by_cases hkv : c.keyValue = false
  · exact (c.form key hkv).lapses
  · cases c with
    | get => exact (lapses_get key).map _
    | peek => exact (lapses_peek key).map _
    | peekVersion => exact lapses_peekVersion.map _
    | set e => exact (lapses_set key e).map _
    | acceptIfNewer e => exact (lapses_acceptIfNewer key e).map _
    | acceptNegative e => exact (lapses_acceptNegative key hpure).map _
    | delete => exact absurd rfl hc
    | deleteIfVersion v => exact (lapses_deleteIfVersion key v).map _
    | _ => exact absurd rfl hkv

theorem CachedCall.lapses (c : CachedCall) : Lapses (lazily.cachedVerb key c) := by
  cases c with
  | setAdd | zAdd | geoAdd | lPush | rPush | hSet => exact (Carrier.lapses_mutate _ _ _ _ _ _).map _
  | setRemove | zRem | geoRem | hDel => exact (Carrier.lapses_removeVerb _ _ _ _ _ _).map _
  | lPop | rPop => exact (Carrier.lapses_pop _ _ _ _ _).map _
  | setContains | hasSet | setCard | setMembers => exact (Carrier.lapses_read _ _ _).map _
  | zScore | zCard | hasZSet | zRange | zRangeByScore => exact (Carrier.lapses_read _ _ _).map _
  | geoPos | geoCard | hasGeo | geoDist | geoRadius => exact (Carrier.lapses_read _ _ _).map _
  | lLen | hasList | lIndex | lRange => exact (Carrier.lapses_read _ _ _).map _
  | hGet | hExists | hLen | hasHash | hGetAll => exact (Carrier.lapses_read _ _ _).map _
  | setInstall | zInstall | geoInstall | lInstall | hInstall =>
    exact (Carrier.lapses_install _ _ _ _ _ _).map _
  | jSet => exact (DocCarrier.lapses_set _ _ _ _ _ _ _).map _
  | jDel => exact (DocCarrier.lapses_del _ _ _ _ _).map _
  | jGet => exact (DocCarrier.lapses_get _ _).map _
  | hasJSON => exact (lapses_readLive _ _).map _
  | jInstall => exact (DocCarrier.lapses_install _ _ _ _ _).map _

/-- An expired item makes no difference to any call but the hard delete, whose answer says
whether there was an item. -/
theorem Call.lapses (c : Call) (hpure : c.Pure) (hc : c ≠ .plain .delete) :
    Lapses (c.verb key) := by
  rw [Call.verb_eq]
  cases c with
  | plain c => exact c.lapses key hpure fun h => hc (congrArg Call.plain h)
  | cached c => exact c.lapses key

end Table

section Stores

variable {t : ℤ} {m m' : Mem}

/-- What two stores hold under one key: the same up to caches nothing looks at, or an item
that is expired at `t` and nothing. -/
inductive Fate (t : ℤ) : Option LruItem → Option LruItem → Prop
  | twins {x y : Option LruItem} (h : Option.Rel Twin x y) : Fate t x y
  | lapsed (a : LruItem) (h : a.entry.expired t = true) : Fate t (some a) none

/-- One call, under its key. -/
theorem Call.fate (c : Call) (hpure : c.Pure) (key : Bytes) (env : Env) (ht : t ≤ env.now)
    {x y : Option LruItem} (h : Fate t x y) :
    Fate t ((c.verb key env x).act.result x) ((c.verb key env y).act.result y) ∧
      (c ≠ .plain .delete → (c.verb key env y).ret ((c.verb key env y).act.result y).isSome =
          (c.verb key env x).ret ((c.verb key env x).act.result x).isSome) := by
  cases h with
  | twins hrel =>
    have hagree : twins.Agree key (c.verb key) (c.verb key) := by
      rw [Call.verb_eq]
      exact Likeness.agree_verb twins_matches c hpure
    obtain ⟨hact, -, hret⟩ := hagree env x y hrel
    have hresult := hact.result hrel
    refine ⟨.twins hresult, fun _ => ?_⟩
    rw [hret, isSome_of_rel hresult]
  | lapsed a hx =>
    by_cases hc : c = .plain .delete
    · subst hc
      exact ⟨.twins .none, fun hne => absurd rfl hne⟩
    · have hlater : a.entry.expired env.now = true := by
        by_contra hlive
        rw [Entry.expired_of_le ht (Bool.eq_false_iff.mpr hlive)] at hx
        cases hx
      cases c.lapses key hpure hc env a hlater with
      | idle r hp hp' =>
        rw [hp, hp']
        exact ⟨.lapsed a hx, fun _ => rfl⟩
      | met hret hresult =>
        refine ⟨.twins hresult, fun _ => ?_⟩
        rw [hret, isSome_of_rel hresult]

/-- The second store is the first without items that are expired at `t`. -/
structure Rid (t : ℤ) (m m' : Mem) : Prop where
  unbounded : m.cache.maxBytes ≤ 0
  env_eq : ∀ now, m'.env now = m.env now
  lookup : ∀ k, Fate t (m.lookup k) (m'.lookup k)

theorem Rid.unbounded_right (h : Rid t m m') : m'.cache.maxBytes ≤ 0 :=
  (congrArg Env.maxBytes (h.env_eq 0)).trans_le h.unbounded

/-- One call on both stores, with one answer. -/
theorem Rid.step (h : Rid t m m') (op : Op) (hnow : t ≤ op.now) (hpure : op.call.Pure) :
    Rid t (Supercache.step m op).1 (Supercache.step m' op).1 ∧
      (op.call ≠ .plain .delete → (Supercache.step m' op).2 = (Supercache.step m op).2) := by
  have hfate := op.call.fate hpure op.key (m.env op.now) hnow (h.lookup op.key)
  have hafter := m.lookup_perform_of_unbounded h.unbounded op.now op.key (op.call.verb op.key)
  have hafter' := m'.lookup_perform_of_unbounded h.unbounded_right op.now op.key
    (op.call.verb op.key)
  unfold Supercache.step
  refine ⟨⟨?_, fun now => ?_, fun k => ?_⟩, fun hne => ?_⟩
  · have hmax : (m.perform op.now op.key (op.call.verb op.key)).1.cache.maxBytes =
        m.cache.maxBytes := congrArg Env.maxBytes (m.perform_env op.now op.key _ 0)
    rw [hmax]
    exact h.unbounded
  · rw [m'.perform_env, m.perform_env, h.env_eq]
  · rw [hafter, hafter', Memory.expected, Memory.expected, h.env_eq]
    split
    · exact hfate.1
    · exact h.lookup k
  · rw [Memory.perform_ret, Memory.perform_ret, hafter, hafter', Memory.expected, Memory.expected,
      if_pos rfl, if_pos rfl, h.env_eq]
    exact hfate.2 hne

/-- The answers of a whole run. -/
theorem Rid.answers (h : Rid t m m') (ops : List Op) (hnow : ∀ op ∈ ops, t ≤ op.now)
    (hpure : ∀ op ∈ ops, op.call.Pure) (i : ℕ) (op : Op) (hop : ops[i]? = some op)
    (hne : op.call ≠ .plain .delete) :
    (Supercache.answers m ops)[i]? = (Supercache.answers m' ops)[i]? := by
  induction ops generalizing m m' i with
  | nil => simp at hop
  | cons first rest ih =>
    obtain ⟨hrid, hret⟩ := h.step first (hnow first List.mem_cons_self)
      (hpure first List.mem_cons_self)
    cases i with
    | zero =>
      have hfirst : first = op := by simpa using hop
      subst hfirst
      simp [Supercache.answers, hret hne]
    | succ i =>
      simp only [Supercache.answers, List.getElem?_cons_succ] at hop ⊢
      exact ih hrid (fun op hmem => hnow op (List.mem_cons_of_mem _ hmem))
        (fun op hmem => hpure op (List.mem_cons_of_mem _ hmem)) i hop

end Stores

section Purge

def Memory.purge (m : Mem) (t : ℤ) : Mem :=
  ((m.cache.order.filter fun n => n.val.entry.expired t).map Node.key).foldl
    (fun m key => (m.perform t key delete).1) m

variable {m : Mem} (hmax : m.cache.maxBytes ≤ 0) (t : ℤ)
include hmax

/-- Deleting keys empties these and no others. -/
theorem lookup_deletes (keys : List Bytes) :
    (∀ now, (keys.foldl (fun m key => (m.perform t key delete).1) m).env now = m.env now) ∧
      ∀ k, (keys.foldl (fun m key => (m.perform t key delete).1) m).lookup k =
        if k ∈ keys then none else m.lookup k := by
  induction keys generalizing m with
  | nil => exact ⟨fun _ => rfl, fun _ => rfl⟩
  | cons key keys ih =>
    have hafter := m.lookup_perform_of_unbounded hmax t key delete
    have henv := m.perform_env t key delete
    have hmax' : (m.perform t key delete).1.cache.maxBytes ≤ 0 := by
      rw [show (m.perform t key delete).1.cache.maxBytes = m.cache.maxBytes from
        congrArg Env.maxBytes (henv 0)]
      exact hmax
    obtain ⟨hrest, hlookup⟩ := ih hmax'
    refine ⟨fun now => (hrest now).trans (henv now), fun k => ?_⟩
    rw [List.foldl_cons, hlookup, hafter, Memory.expected]
    have hgone : (delete (m.env t) (m.lookup key)).act.result (m.lookup key) = none := by
      cases m.lookup key <;> rfl
    rw [hgone]
    by_cases hk : k = key
    · simp [hk]
    · simp [hk]

/-- Purging takes away the expired items and nothing else. -/
theorem Memory.lookup_purge (k : Bytes) :
    (m.purge t).lookup k = (m.lookup k).filter fun a => !a.entry.expired t := by
  rw [Memory.purge, (lookup_deletes hmax t _).2 k]
  cases hlookup : m.lookup k with
  | none => simp
  | some a =>
    obtain ⟨n, hfind, rfl⟩ := Option.map_eq_some_iff.mp hlookup
    have hmem : k ∈ (m.cache.order.filter fun n => n.val.entry.expired t).map Node.key ↔
        n.val.entry.expired t = true := by
      simp only [List.mem_map, List.mem_filter]
      constructor
      · rintro ⟨n', ⟨hn', hx⟩, hkey⟩
        rwa [m.wf.eq_of_key_eq (m.wf.find_mem hfind) hn'
          ((m.wf.find_key hfind).trans hkey.symm)]
      · exact fun hx => ⟨n, ⟨m.wf.find_mem hfind, hx⟩, m.wf.find_key hfind⟩
    cases hx : n.val.entry.expired t with
    | true => simp [hmem, hx, Option.filter]
    | false => simp [hmem, hx, Option.filter]

theorem Memory.rid_purge : Rid t m (m.purge t) := by
  refine ⟨hmax, (lookup_deletes hmax t _).1, fun k => ?_⟩
  rw [Memory.lookup_purge hmax t k]
  cases m.lookup k with
  | none => exact .twins .none
  | some a =>
    cases hx : a.entry.expired t with
    | true => simpa [hx, Option.filter] using Fate.lapsed a hx
    | false => simpa [hx, Option.filter] using Fate.twins (t := t) (.some (Twin.refl a))

end Purge

/-- Without a byte limit, the calls from `t` on give the answers they would give had every
entry that is expired at `t` been removed first. The hard delete is an exception: it says
whether there was an item, expired or not. -/
theorem expired_absent (m : Mem) (hmax : m.cache.maxBytes ≤ 0) (t : ℤ) (ops : List Op)
    (hnow : ∀ op ∈ ops, t ≤ op.now) (hpure : ∀ op ∈ ops, op.call.Pure) (i : ℕ) (op : Op)
    (hop : ops[i]? = some op) (hne : op.call ≠ .plain .delete) :
    (answers m ops)[i]? = (answers (m.purge t) ops)[i]? :=
  (Memory.rid_purge hmax t).answers ops hnow hpure i op hop hne

def lapsedTombstone : Mem :=
  (step (Memory.newMemory 0 5) ⟨0, [0x6B], .plain (.deleteIfVersion 9)⟩).1

def readded : List Op :=
  [⟨10, [0x6B], .cached (.setAdd [7] 1 0)⟩, ⟨11, [0x6B], .cached (.setContains [7])⟩]

/-- A set is added again once its tombstone has expired. -/
theorem expired_absent_tombstone :
    (answers lapsedTombstone readded)[1]? = (answers (lapsedTombstone.purge 10) readded)[1]? ∧
      (answers lapsedTombstone readded).map Ret.applied = [true, true] :=
  ⟨expired_absent lapsedTombstone (by decide) 10 readded (by simp [readded])
    (by simp [readded, Call.Pure]) 1 ⟨11, [0x6B], .cached (.setContains [7])⟩ rfl (by simp),
    by decide +kernel⟩

def lapsedSet : Mem :=
  run (Memory.newMemory 0 5)
    [⟨0, [0x6B], .cached (.setAdd [7] 1 5)⟩, ⟨0, [0x6B], .cached (.setAdd [8] 2 5)⟩]

/-- The hard delete reports the expired set. A negative entry that has the flag of a set
brings the members back. -/
theorem expired_reported :
    let delete : List Op := [⟨10, [0x6B], .plain .delete⟩]
    let negate : List Op :=
      [⟨10, [0x6B], .plain (.acceptNegative ⟨[], 3, 0, flagNegative + flagSet⟩)⟩,
        ⟨11, [0x6B], .cached (.setContains [7])⟩]
    let told (m : Mem) (ops : List Op) := (answers m ops).map Ret.applied
    told lapsedSet delete = [true] ∧ told (lapsedSet.purge 10) delete = [false] ∧
      told lapsedSet negate = [true, true] ∧ told (lapsedSet.purge 10) negate = [true, false] := by
  decide +kernel

end Supercache
