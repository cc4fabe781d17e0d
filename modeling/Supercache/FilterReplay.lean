import Supercache.HintNames
import Supercache.Forwarding
import Supercache.BloomJoin

/-!
The hints of a Bloom filter delivered to a peer. Deletes put a tombstone in the filter's place,
item-adds and snapshots set bits in it or start a new one over what is older. Once an item-add
newer than the deletes before it has arrived, the item stays in the filter while no further delete
comes.
-/
namespace Supercache.FilterReplay

open Wire Lru Hints Forwarding Bloom

/-- A keyspace of the peer: its name, the shape of its filters and their lifetime, and what it does
with entries of the other modes. -/
structure Keyspace extends BloomMK where
  ks : Bytes
  ttl : ℤ
  other : FanoutHint → Verb LruItem Bool

structure Arrival where
  hint : FanoutHint
  now : ℤ

variable (p : Keyspace)

def expire (a : Arrival) : ℤ :=
  if a.hint.ent.expireAt = 0 then expireAt a.now p.ttl else a.hint.ent.expireAt

def apply (a : Arrival) : Verb LruItem Bool :=
  let ent := a.hint.ent
  if ent.isTombstone then Store.deleteIfVersion a.hint.key ent.version
  else if ent.has flagBloomAdd then
    Store.bloomAdd a.hint.key ent.value p.m p.k ent.version (expire p a)
  else if ent.has flagBloom then
    Store.bloomMerge a.hint.key ent.value p.m p.k ent.version (expire p a)
  else p.other a.hint

def deliver (m : Mem) (a : Arrival) : Mem :=
  if a.hint.ks = p.ks then (m.perform a.now a.hint.key (apply p a)).1 else m

def For (key : Bytes) (a : Arrival) : Prop := a.hint.ks = p.ks ∧ a.hint.key = key

/-- The hint deletes the filter, or brings bits that last until `T`. -/
def Suits (T : ℤ) (a : Arrival) : Prop :=
  a.hint.ent.isTombstone = true ∨
    (a.hint.ent.has flagBloomAdd = true ∨ a.hint.ent.has flagBloom = true) ∧
      Entry.Lasts T (expire p a)

def opOf (a : Arrival) : Bloom.Op where
  edit := if a.hint.ent.has flagBloomAdd then .add a.hint.ent.value else .merge a.hint.ent.value
  now := a.now
  version := a.hint.ent.version
  expireAt := expire p a

/-- Nothing is in the way of an add of the version: what is there has expired by `t0`, or is an
older tombstone, or is a filter of the shape that lasts until `T`. -/
def Admits (t0 T : ℤ) (version : ℕ) (old : Option LruItem) : Prop :=
  ∀ it, old = some it → it.entry.expired t0 = true ∨
    (it.entry.isTombstone = true ∧ it.entry.version < version) ∨
    Holds T p.m p.k it.entry.value it

/-- A filter of the shape that lasts until `T` and has the bits of the item. -/
def HasItem (T : ℤ) (item : Bytes) (old : Option LruItem) : Prop :=
  ∃ it, old = some it ∧ Holds T p.m p.k it.entry.value it ∧
    ∀ i, (Edit.add item).sets p.m p.k i = true → testBit it.entry.value i = true

variable {p} {t0 T now : ℤ} {version : ℕ} {key item : Bytes} {m : Mem} {a : Arrival} {op : Bloom.Op}

theorem Keyspace.shape (p : Keyspace) : Shape p.m p.k :=
  ⟨Nat.le_trans (by decide) p.bits_le, p.hashes_pos⟩

section Results

theorem expired_later {e : Entry} (hle : t0 ≤ now) (h : e.expired t0 = true) :
    e.expired now = true := by
  cases hx : e.expired now with
  | true => rfl
  | false => exact absurd (h.symm.trans (Entry.expired_of_le hle hx)) Bool.noConfusion

variable {env : Env} {it : LruItem} {old : Option LruItem}

/-- A call goes over what has expired and over an older tombstone as if nothing were there. -/
theorem result_of_gone (hfits : op.edit.fits p.m) (hgone : it.entry.expired env.now = true ∨
      (it.entry.isTombstone = true ∧ it.entry.version < op.version)) :
    (op.verb key p.m p.k env (some it)).act.result (some it) =
      (op.verb key p.m p.k env none).act.result none := by
  have hzeros : open_ p.m p.k (List.replicate ((p.m + 7) / 8) 0) = some ⟨zeros p.m, p.m, p.k⟩ :=
    open_of_length p.shape (List.length_replicate ..)
  rw [verb_eq_mutate key env p.shape hfits, verb_eq_mutate key env p.shape hfits]
  unfold Store.bloomMutate
  cases hx : (entry it).expired env.now with
  | true =>
    simp only [hx, hzeros, if_true]
    rfl
  | false =>
    rcases hgone with hexpired | ⟨htomb, hlt⟩
    · exact absurd (hx.symm.trans hexpired) Bool.false_ne_true
    · have hnew : ¬ op.version ≤ (entry it).version := Nat.not_le.mpr hlt
      have htomb' : (entry it).isTombstone = true := htomb
      simp only [hx, htomb', hnew, hzeros, if_true, if_false, Bool.false_eq_true]
      rfl

/-- A merge of bits that do not fit does nothing. -/
theorem result_of_unfit (hfits : ¬ op.edit.fits p.m) :
    (op.verb key p.m p.k env old).act.result old = old := by
  unfold Bloom.Op.verb
  cases hedit : op.edit with
  | add item =>
    rw [hedit] at hfits
    exact absurd trivial hfits
  | merge bits =>
    rw [hedit] at hfits
    have hnone : open_ p.m p.k bits = none := by
      cases hopen : open_ p.m p.k bits with
      | none => rfl
      | some f => exact absurd (open_eq_some_iff.mp hopen).2.1 hfits
    simp only [Store.bloomMerge, hnone]
    rfl

/-- An add that nothing is in the way of leaves a filter with its bits. -/
theorem result_of_admits (htimely : Timely T p.m op) (hnow : env.now = op.now)
    (hle : t0 ≤ op.now) (hold : Admits p t0 T op.version old) :
    ∃ it, (op.verb key p.m p.k env old).act.result old = some it ∧
      Holds T p.m p.k it.entry.value it ∧
      ∀ i, op.edit.sets p.m p.k i = true → testBit it.entry.value i = true := by
  have hzeros : (zeros p.m).length = (p.m + 7) / 8 := List.length_replicate ..
  obtain ⟨fresh, hfresh, hholds, -⟩ := result_of_none key env p.shape htimely
  have hnew : ∀ i, op.edit.sets p.m p.k i = true → testBit fresh.entry.value i = true := by
    intro i hi
    rw [hholds.value, testBit_apply p.shape hzeros htimely.fits, hi, Bool.or_true]
  cases old with
  | none => exact ⟨fresh, hfresh, hholds.value ▸ hholds, hnew⟩
  | some it =>
    have hover : (it.entry.expired env.now = true ∨
        (it.entry.isTombstone = true ∧ it.entry.version < op.version)) →
        (op.verb key p.m p.k env (some it)).act.result (some it) = some fresh := by
      intro hgone
      rw [result_of_gone htimely.fits hgone, hfresh]
    rcases hold it rfl with hexpired | htomb | hlive
    · have hexpired' : it.entry.expired env.now = true := expired_later (hnow ▸ hle) hexpired
      exact ⟨fresh, hover (Or.inl hexpired'), hholds.value ▸ hholds, hnew⟩
    · exact ⟨fresh, hover (Or.inr htomb), hholds.value ▸ hholds, hnew⟩
    · obtain ⟨it', hresult, hholds', -⟩ := result_of_holds key env p.shape htimely hlive hnow
      refine ⟨it', hresult, hholds'.value ▸ hholds', fun i hi => ?_⟩
      rw [hholds'.value, testBit_apply p.shape hlive.length htimely.fits, hi, Bool.or_true]

/-- A call keeps the bits that are set. -/
theorem result_of_hasItem (htimely : op.edit.fits p.m → Timely T p.m op) (hnow : env.now = op.now)
    (hold : HasItem p T item old) :
    HasItem p T item ((op.verb key p.m p.k env old).act.result old) := by
  by_cases hfits : op.edit.fits p.m
  · obtain ⟨it, rfl, hholds, hbits⟩ := hold
    obtain ⟨it', hresult, hholds', -⟩ := result_of_holds key env p.shape (htimely hfits) hholds hnow
    refine ⟨it', hresult, hholds'.value ▸ hholds', fun i hi => ?_⟩
    rw [hholds'.value, testBit_apply p.shape hholds.length hfits, hbits i hi, Bool.true_or]
  · rw [result_of_unfit hfits]
    exact hold

theorem admits_of_holds (h : Holds T p.m p.k it.entry.value it) :
    Admits p t0 T version (some it) := by
  rintro _ ⟨⟩
  exact Or.inr (Or.inr h)

/-- A call of any version leaves nothing in the way of a newer one. -/
theorem admits_result (htimely : op.edit.fits p.m → Timely T p.m op) (hnow : env.now = op.now)
    (hle : t0 ≤ op.now) (hold : Admits p t0 T version old) :
    Admits p t0 T version ((op.verb key p.m p.k env old).act.result old) := by
  by_cases hfits : op.edit.fits p.m
  · by_cases hadmits : Admits p t0 T op.version old
    · obtain ⟨it, hresult, hholds, -⟩ := result_of_admits (htimely hfits) hnow hle hadmits
      rw [hresult]
      exact admits_of_holds hholds
    · simp only [Admits, not_forall] at hadmits
      obtain ⟨it, rfl, hnot⟩ := hadmits
      rcases hold it rfl with hexpired | ⟨htomb, -⟩ | hholds
      · exact absurd (Or.inl hexpired) hnot
      · -- a tombstone that the call does not go over, unless it has expired
        have hstale : op.version ≤ (entry it).version :=
          Nat.not_lt.mp fun hlt => hnot (Or.inr (Or.inl ⟨htomb, hlt⟩))
        have htomb' : (entry it).isTombstone = true := htomb
        cases hx : (entry it).expired env.now with
        | true =>
          obtain ⟨fresh, hfresh, hholds, -⟩ := result_of_none key env p.shape (htimely hfits)
          rw [result_of_gone hfits (Or.inl hx), hfresh]
          exact admits_of_holds (hholds.value ▸ hholds)
        | false =>
          rw [verb_eq_mutate key env p.shape hfits]
          simp only [Store.bloomMutate, hx, htomb', hstale, if_true, if_false, Bool.false_eq_true]
          exact hold
      · exact absurd (Or.inr (Or.inr hholds)) hnot
  · rw [result_of_unfit hfits]
    exact hold

/-- An older delete leaves nothing in the way. -/
theorem admits_delete {deleteVersion : ℕ} (hlt : deleteVersion < version)
    (hold : Admits p t0 T version old) : Admits p t0 T version
      ((Store.deleteIfVersion key deleteVersion env old : Plan LruItem Bool).act.result old) := by
  have htomb : ∀ it : LruItem, it.entry = Store.tombstone env deleteVersion →
      Admits p t0 T version (some it) := by
    intro it hit it' hit'
    obtain rfl := Option.some.inj hit'
    refine Or.inr (Or.inl ⟨?_, ?_⟩)
    · have hflag : (flagTombstone &&& flagTombstone != 0) = true := by decide
      rw [hit]
      exact hflag
    · rw [hit]
      exact hlt
  cases old with
  | none => exact htomb _ rfl
  | some it =>
    simp only [Store.deleteIfVersion]
    split
    · exact hold
    · exact htomb _ rfl

end Results

section Deliver

/-- The peer does with a hint for the filter what the hint says. -/
theorem deliver_eq (hfor : For p key a) : deliver p m a = (m.perform a.now key (apply p a)).1 := by
  rw [deliver, if_pos hfor.1, hfor.2]

theorem apply_of_delete (hdel : a.hint.ent.isTombstone = true) :
    apply p a = Store.deleteIfVersion a.hint.key a.hint.ent.version := by
  rw [apply, if_pos hdel]

theorem apply_of_not_delete (hsuits : Suits p T a) (hdel : a.hint.ent.isTombstone = false) :
    apply p a = (opOf p a).verb a.hint.key p.m p.k := by
  have hbits := hsuits.resolve_left (Bool.eq_false_iff.mp hdel)
  simp only [apply, hdel, Bool.false_eq_true, if_false, opOf, Bloom.Op.verb]
  cases hadd : a.hint.ent.has flagBloomAdd with
  | true => rfl
  | false =>
    have hbloom := hbits.1.resolve_left (Bool.eq_false_iff.mp hadd)
    simp only [hbloom, Bool.false_eq_true, if_true, if_false]

theorem timely_opOf (hsuits : Suits p T a) (hdel : a.hint.ent.isTombstone = false)
    (hnow : a.now < T) (hfits : (opOf p a).edit.fits p.m) : Timely T p.m (opOf p a) :=
  ⟨hnow, (hsuits.resolve_left (Bool.eq_false_iff.mp hdel)).2, hfits⟩

/-- What is delivered for other names leaves what is there, or evicts it. -/
theorem lookup_deliver_of_not_for (hfor : ¬ For p key a) :
    (deliver p m a).lookup key = m.lookup key ∨ (deliver p m a).lookup key = none ∧
        ∃ it, m.lookup key = some it ∧ it.entry.pinned a.now = false := by
  unfold deliver
  by_cases hks : a.hint.ks = p.ks
  · rw [if_pos hks]
    have hne : key ≠ a.hint.key := fun heq => hfor ⟨hks, heq.symm⟩
    have hlook := m.lookup_perform a.now a.hint.key (apply p a) key
    rwa [Memory.expected, if_neg hne] at hlook
  · rw [if_neg hks]
    exact Or.inl rfl

theorem Admits.mono {later : ℕ} {old : Option LruItem} (h : Admits p t0 T version old)
    (hle : version ≤ later) : Admits p t0 T later old := by
  intro it hit
  rcases h it hit with hexpired | ⟨htomb, hlt⟩ | hholds
  · exact Or.inl hexpired
  · exact Or.inr (Or.inl ⟨htomb, hlt.trans_le hle⟩)
  · exact Or.inr (Or.inr hholds)

theorem admits_none : Admits p t0 T version none := fun _ hit => absurd hit (by simp)

/-- What holds of the planned result is not lost to eviction, which leaves nothing in the way. -/
theorem admits_perform {v : Verb LruItem Bool}
    (h : Admits p t0 T version ((v (m.env now) (m.lookup key)).act.result (m.lookup key))) :
    Admits p t0 T version ((m.perform now key v).1.lookup key) := by
  rcases m.lookup_perform now key v key with heq | ⟨hnone, -⟩
  · rw [heq, Memory.expected, if_pos rfl]
    exact h
  · rw [hnone]
    exact admits_none

theorem pinned_of_holds {it : LruItem} (h : Holds T p.m p.k it.entry.value it) (hnow : now < T) :
    it.entry.pinned now = true :=
  Entry.pinned_of_flags (by decide) h.flag (Entry.expired_of_lasts h.lasts hnow)

theorem hasItem_perform {v : Verb LruItem Bool} (hnow : now < T)
    (h : HasItem p T item ((v (m.env now) (m.lookup key)).act.result (m.lookup key))) :
    HasItem p T item ((m.perform now key v).1.lookup key) := by
  obtain ⟨it, hit, hholds, hbits⟩ := h
  refine ⟨it, m.lookup_perform_of_pinned ?_ (pinned_of_holds hholds hnow), hholds, hbits⟩
  rw [Memory.expected, if_pos rfl, hit]

/-- Deletes older than the version, and adds and snapshots of any version, leave nothing in its
way. -/
theorem admits_deliver (hle : t0 ≤ a.now) (hnow : a.now < T) (hsuits : For p key a → Suits p T a ∧
      (a.hint.ent.isTombstone = true → a.hint.ent.version < version))
    (hold : Admits p t0 T version (m.lookup key)) :
    Admits p t0 T version ((deliver p m a).lookup key) := by
  by_cases hfor : For p key a
  · obtain ⟨hsuit, hlt⟩ := hsuits hfor
    rw [deliver_eq hfor]
    refine admits_perform ?_
    cases hdel : a.hint.ent.isTombstone with
    | true =>
      rw [apply_of_delete hdel]
      exact admits_delete (hlt hdel) hold
    | false =>
      rw [apply_of_not_delete hsuit hdel]
      exact admits_result (timely_opOf hsuit hdel hnow) rfl hle hold
  · rcases lookup_deliver_of_not_for hfor with hsame | ⟨hnone, -⟩
    · rw [hsame]
      exact hold
    · rw [hnone]
      exact admits_none

/-- The item is in the filter once its add has arrived. -/
theorem hasItem_of_add (hle : t0 ≤ a.now) (hnow : a.now < T) (hfor : For p key a)
    (hsuits : Suits p T a) (hdel : a.hint.ent.isTombstone = false)
    (hadd : a.hint.ent.has flagBloomAdd = true)
    (hold : Admits p t0 T a.hint.ent.version (m.lookup key)) :
    HasItem p T a.hint.ent.value ((deliver p m a).lookup key) := by
  have hedit : (opOf p a).edit = .add a.hint.ent.value := by rw [opOf, if_pos hadd]
  have hfits : (opOf p a).edit.fits p.m := by
    rw [hedit]
    trivial
  rw [deliver_eq hfor]
  refine hasItem_perform hnow ?_
  rw [apply_of_not_delete hsuits hdel]
  have hclock : (m.env a.now).now = (opOf p a).now := rfl
  obtain ⟨it, hresult, hholds, hbits⟩ :=
    result_of_admits (timely_opOf hsuits hdel hnow hfits) hclock hle hold
  exact ⟨it, hresult, hholds, hedit ▸ hbits⟩

/-- It stays there while no delete arrives. -/
theorem hasItem_deliver (hnow : a.now < T)
    (hsuits : For p key a → Suits p T a ∧ a.hint.ent.isTombstone = false)
    (hold : HasItem p T item (m.lookup key)) : HasItem p T item ((deliver p m a).lookup key) := by
  by_cases hfor : For p key a
  · obtain ⟨hsuit, hdel⟩ := hsuits hfor
    rw [deliver_eq hfor]
    refine hasItem_perform hnow ?_
    rw [apply_of_not_delete hsuit hdel]
    exact result_of_hasItem (timely_opOf hsuit hdel hnow) rfl hold
  · rcases lookup_deliver_of_not_for hfor with hsame | ⟨-, it, hit, hunpinned⟩
    · rw [hsame]
      exact hold
    · obtain ⟨it', hit', hholds, -⟩ := hold
      obtain rfl := Option.some.inj (hit.symm.trans hit')
      exact absurd (hunpinned.symm.trans (pinned_of_holds hholds hnow)) Bool.false_ne_true

theorem test_of_hasItem (h : HasItem p T item (m.lookup key)) (hnow : now < T) :
    (m.perform now key (Store.bloomTest item p.m p.k)).2 = true := by
  obtain ⟨it, hit, hholds, hbits⟩ := h
  have hopen : open_ p.m p.k (entry it).value = some ⟨it.entry.value, p.m, p.k⟩ :=
    open_of_length p.shape hholds.length
  rw [Memory.perform_ret, hit, Store.bloomTest_of_live _ item
    (Entry.expired_of_lasts hholds.lasts hnow) hholds.live hholds.flag hopen]
  have hself : (Edit.add item).contains p.m p.k item := rfl
  exact test_of_contains p.shape hholds.length hself hbits

end Deliver

/-- What the peer is sent: older deletes of the filter before the item-add, none after it. -/
structure Replay (p : Keyspace) (t0 T : ℤ) (key : Bytes) (pre : List Arrival) (add : Arrival)
    (post : List Arrival) : Prop where
  times : ∀ a ∈ pre ++ add :: post, t0 ≤ a.now ∧ a.now < T
  suits : ∀ a ∈ pre ++ add :: post, For p key a → Suits p T a
  isAdd : add.hint.ent.has flagBloomAdd = true
  live : add.hint.ent.isTombstone = false
  isFor : For p key add
  older : ∀ a ∈ pre, For p key a → a.hint.ent.isTombstone = true →
    a.hint.ent.version < add.hint.ent.version
  none_after : ∀ a ∈ post, For p key a → a.hint.ent.isTombstone = false

/-- After such a replay the peer's filter has the item. -/
theorem Replay.test {pre post : List Arrival} {add : Arrival} (h : Replay p t0 T key pre add post)
    (hstart : Admits p t0 T add.hint.ent.version (m.lookup key)) (hnow : now < T) :
    (((pre ++ add :: post).foldl (deliver p) m).perform now key
      (Store.bloomTest add.hint.ent.value p.m p.k)).2 = true := by
  have hpre : ∀ a ∈ pre, a ∈ pre ++ add :: post := fun a ha => List.mem_append_left _ ha
  have hpost : ∀ a ∈ post, a ∈ pre ++ add :: post := fun a ha =>
    List.mem_append_right _ (List.mem_cons_of_mem add ha)
  have hadd : add ∈ pre ++ add :: post := List.mem_append_right _ List.mem_cons_self
  have hbefore : Admits p t0 T add.hint.ent.version ((pre.foldl (deliver p) m).lookup key) := by
    refine List.foldlRecOn (motive := fun m => Admits p t0 T add.hint.ent.version (m.lookup key))
      pre (deliver p) hstart fun m hm a ha => ?_
    obtain ⟨hle, hlt⟩ := h.times a (hpre a ha)
    exact admits_deliver hle hlt
      (fun hfor => ⟨h.suits a (hpre a ha) hfor, h.older a ha hfor⟩) hm
  obtain ⟨hle, hlt⟩ := h.times add hadd
  have hthere := hasItem_of_add hle hlt h.isFor (h.suits add hadd h.isFor) h.live h.isAdd hbefore
  rw [List.foldl_append, List.foldl_cons]
  refine test_of_hasItem (List.foldlRecOn
    (motive := fun m => HasItem p T add.hint.ent.value (m.lookup key)) post (deliver p) hthere
    fun m hm a ha => ?_) hnow
  exact hasItem_deliver (h.times a (hpost a ha)).2
    (fun hfor => ⟨h.suits a (hpost a ha) hfor, h.none_after a ha hfor⟩) hm

end Supercache.FilterReplay
