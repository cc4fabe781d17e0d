import Supercache.Item
import Supercache.Latest

/-!
Last-writer-wins replication of plain entries. Replicas receive versioned puts and deletes in any
order, some more than once. A put needs a greater version than what is stored, a delete only one
that is not smaller; so a store without byte budget and expiry holds the newest message, by twice
the version, plus one for a delete.
-/
namespace Supercache.Convergence

open Wire Lru Store Latest

inductive Msg where
  | put (e : Entry)
  | del (version : ℕ)
deriving DecidableEq, Repr

namespace Msg

def stamp : Msg → ℕ
  | put e => 2 * e.version
  | del version => 2 * version + 1

def deleted (version : ℕ) : Entry := ⟨[], version, 0, flagTombstone⟩

def entry : Msg → Entry
  | put e => e
  | del version => deleted version

def verb (key : Bytes) : Msg → Verb LruItem Bool
  | put e => acceptIfNewer key e
  | del version => deleteIfVersion key version

end Msg

theorem isTombstone_tombstone (v : ℕ) (x : ℤ) :
    Entry.isTombstone ⟨[], v, x, flagTombstone⟩ = true := by
  simp only [Entry.isTombstone, Entry.has]
  decide

structure Delivery where
  now : ℤ
  key : Bytes
  msg : Msg

def deliver (m : Memory LruItem) (d : Delivery) : Memory LruItem :=
  (m.perform d.now d.key (d.msg.verb d.key)).1

def deliverAll (m : Memory LruItem) (ds : List Delivery) : Memory LruItem := ds.foldl deliver m

def messages (k : Bytes) (ds : List Delivery) : List Msg :=
  (ds.filter fun d => d.key = k).map Delivery.msg

structure Observed where
  get : Option Entry
  peek : Option Entry
  version : Option ℕ
deriving DecidableEq, Repr

def observe (m : Memory LruItem) (now : ℤ) (k : Bytes) : Observed where
  get := (m.perform now k (Store.get k)).2
  peek := (m.perform now k (Store.peek k)).2
  version := (m.perform now k peekVersion).2

/-- A value that can be read and does not expire. -/
structure Positive (e : Entry) : Prop where
  not_tombstone : e.isTombstone = false
  not_negative : e.isNegative = false
  no_expiry : e.expireAt = 0

/-- No byte budget, and tombstones that do not expire. -/
structure Unlimited (m : Memory LruItem) : Prop where
  maxBytes : m.cache.maxBytes ≤ 0
  tombstoneTTL : m.tombstoneTTL ≤ 0

/-- What the messages of a key settle on: the put of the highest version, unless
a delete is at least as high. -/
inductive Settled (msgs : List Msg) : Observed → Prop where
  | nothing (h : msgs = []) : Settled msgs ⟨none, none, none⟩
  | put (e : Entry) (h : .put e ∈ msgs) (hputs : ∀ e', .put e' ∈ msgs → e'.version ≤ e.version)
      (hdels : ∀ v, .del v ∈ msgs → v < e.version) : Settled msgs ⟨some e, some e, some e.version⟩
  | tombstone (v : ℕ) (h : .del v ∈ msgs) (hputs : ∀ e, .put e ∈ msgs → e.version ≤ v)
      (hdels : ∀ v', .del v' ∈ msgs → v' ≤ v) :
      Settled msgs ⟨none, some (Msg.deleted v), some v⟩

theorem expired_of_no_expiry {e : Entry} (h : e.expireAt = 0) (now : ℤ) :
    e.expired now = false := by
  simp [Entry.expired, h]

def Acceptable : Msg → Prop
  | .put e => Positive e
  | .del _ => True

theorem Acceptable.no_expiry {msg : Msg} (h : Acceptable msg) : msg.entry.expireAt = 0 := by
  cases msg with
  | put e => exact Positive.no_expiry h
  | del v => rfl

/-- What a replica holds for the newest message of a key: the entry of a put, or a tombstone
with an expiry of its own. -/
inductive Holding (P : ℤ → Prop) : Option Msg → Option LruItem → Prop where
  | nothing : Holding P none none
  | put (e : Entry) (h : P e.expireAt) : Holding P (some (.put e)) (some (LruItem.new e))
  | tombstone (v : ℕ) (x : ℤ) (h : P x) :
      Holding P (some (.del v)) (some (LruItem.new ⟨[], v, x, flagTombstone⟩))

theorem Holding.eq_none {P : ℤ → Prop} {old : Option LruItem} (h : Holding P none old) :
    old = none := by
  cases h
  rfl

section Step

variable {P : ℤ → Prop} {env : Env} {held : Option Msg} {old : Option LruItem} (key : Bytes)
  (h : Holding P held old) (hlive : ∀ e : Entry, P e.expireAt → e.expired env.now = false)

theorem latest_of_lt {w msg : Msg} (h : w.stamp < msg.stamp) :
    latest Msg.stamp (some w) msg = some msg := if_pos h

theorem latest_of_le {w msg : Msg} (h : msg.stamp ≤ w.stamp) :
    latest Msg.stamp (some w) msg = some w := if_neg (Nat.not_lt.mpr h)

theorem deleteIfVersion_of_lt {v : ℕ} {it : LruItem} (hx : it.entry.expired env.now = false)
    (hv : v < it.entry.version) : deleteIfVersion key v env (some it) = .stale false := by
  simp [deleteIfVersion, entry, hx, hv]

theorem result_deleteIfVersion {v : ℕ} {e : Entry} (hv : e.version ≤ v) :
    (deleteIfVersion key v env (some (LruItem.new e))).act.result (some (LruItem.new e)) =
      some (LruItem.new (tombstone env v)) := by
  have hnot : ¬ v < e.version := Nat.not_lt.mpr hv
  simp only [deleteIfVersion, entry, LruItem.new, hnot, and_false, if_false]
  rfl

include h hlive

/-- A put is taken in just when it is the newest message. -/
theorem Holding.put_verb (hmax : env.maxBytes ≤ 0) {e : Entry} (he : P e.expireAt) :
    Holding P (latest Msg.stamp held (.put e)) ((acceptIfNewer key e env old).act.result old) := by
  have hnew : (∀ it, old = some it → it.entry.version < e.version) →
      Holding P (some (.put e)) ((acceptIfNewer key e env old).act.result old) := by
    intro hlt
    rw [acceptIfNewer_of_newer env key (tooBig_of_unbounded hmax _) hlt, result_replace]
    exact .put e he
  cases h with
  | nothing => exact hnew fun _ h => nomatch h
  | put w hw =>
    by_cases hlt : w.version < e.version
    · rw [latest_of_lt (by simp only [Msg.stamp]; omega)]
      exact hnew fun it hit => Option.some.inj hit ▸ hlt
    · rw [latest_of_le (by simp only [Msg.stamp]; omega),
        acceptIfNewer_of_le env _ key (hlive w hw) (Nat.not_lt.mp hlt)]
      exact .put w hw
  | tombstone v x hx =>
    by_cases hlt : v < e.version
    · rw [latest_of_lt (by simp only [Msg.stamp]; omega)]
      exact hnew fun it hit => Option.some.inj hit ▸ hlt
    · rw [latest_of_le (by simp only [Msg.stamp]; omega),
        acceptIfNewer_of_le env _ key (hlive ⟨[], v, x, flagTombstone⟩ hx) (Nat.not_lt.mp hlt)]
      exact .tombstone v x hx

/-- A delete is taken in just when it is the newest message. -/
theorem Holding.del_verb (htomb : P (tombstoneExpireAt env)) (v : ℕ) :
    Holding P (latest Msg.stamp held (.del v))
    ((deleteIfVersion key v env old).act.result old) := by
  cases h with
  | nothing => exact .tombstone v _ htomb
  | put w hw =>
    by_cases hlt : v < w.version
    · rw [latest_of_le (by simp only [Msg.stamp]; omega), deleteIfVersion_of_lt key
        (hlive w hw) hlt]
      exact .put w hw
    · rw [latest_of_lt (by simp only [Msg.stamp]; omega), result_deleteIfVersion key (by omega)]
      exact .tombstone v _ htomb
  | tombstone v' x hx =>
    by_cases hlt : v < v'
    · rw [latest_of_le (by simp only [Msg.stamp]; omega),
        deleteIfVersion_of_lt key (hlive ⟨[], v', x, flagTombstone⟩ hx) hlt]
      exact .tombstone v' x hx
    · -- an equal delete writes a tombstone with a new expiry
      have hlatest : latest Msg.stamp (some (.del v')) (.del v) = some (.del v) := by
        rcases Nat.lt_or_eq_of_le (Nat.not_lt.mp hlt) with hlt' | rfl
        · exact latest_of_lt (by simp only [Msg.stamp]; omega)
        · exact latest_of_le le_rfl
      rw [hlatest, result_deleteIfVersion key (Nat.not_lt.mp hlt)]
      exact .tombstone v _ htomb

end Step

theorem messages_append (k : Bytes) (ds : List Delivery) (d : Delivery) :
    messages k (ds ++ [d]) = messages k ds ++ if d.key = k then [d.msg] else [] := by
  unfold messages
  rw [List.filter_append, List.map_append]
  by_cases hk : d.key = k <;> simp [hk]

/-- A delivery for the key, in time for what is held, and with an expiry that will do. -/
structure Timely (P : ℤ → Prop) (m : Memory LruItem) (d : Delivery) : Prop where
  live : ∀ e : Entry, P e.expireAt → e.expired d.now = false
  put : ∀ e, d.msg = .put e → P e.expireAt
  del : ∀ v, d.msg = .del v → P (tombstoneExpireAt (m.env d.now))

/-- A replica holds the newest of the messages it received for a key. -/
theorem holding_deliverAll {P : ℤ → Prop} (m : Memory LruItem) (hmax : m.cache.maxBytes ≤ 0)
    (k : Bytes) (hk : m.lookup k = none) (ds : List Delivery)
    (hds : ∀ d ∈ ds, d.key = k → Timely P m d) :
    Holding P (newest Msg.stamp (messages k ds)) ((deliverAll m ds).lookup k) := by
  have hrun : (∀ now, (deliverAll m ds).env now = m.env now) ∧
      Holding P (newest Msg.stamp (messages k ds)) ((deliverAll m ds).lookup k) := by
    induction ds using List.reverseRecOn with
    | nil => exact ⟨fun _ => rfl, by rw [deliverAll, List.foldl_nil, hk]; exact .nothing⟩
    | append_singleton ds d ih =>
      obtain ⟨hbefore, hd⟩ := List.forall_mem_append.mp hds
      obtain ⟨henv, hheld⟩ := ih hbefore
      have hfold : deliverAll m (ds ++ [d]) = deliver (deliverAll m ds) d := by
        simp [deliverAll, List.foldl_append]
      have hmax' : (deliverAll m ds).cache.maxBytes ≤ 0 := by
        have hbudget : (deliverAll m ds).cache.maxBytes = m.cache.maxBytes :=
          congrArg Env.maxBytes (henv 0)
        rw [hbudget]
        exact hmax
      rw [hfold, messages_append]
      refine ⟨fun now => (Memory.perform_env _ _ _ _ _).trans (henv now), ?_⟩
      rw [deliver, Memory.lookup_perform_of_unbounded _ hmax', Memory.expected, henv]
      by_cases hkey : d.key = k
      · subst hkey
        obtain ⟨hlive, hput, hdel⟩ := hd d (List.mem_singleton_self d) rfl
        rw [if_pos rfl, if_pos rfl, newest_append_singleton]
        have hunbounded : (m.env d.now).maxBytes ≤ 0 := hmax
        cases hmsg : d.msg with
        | put e => exact hheld.put_verb d.key hlive hunbounded (hput e hmsg)
        | del v => exact hheld.del_verb d.key hlive (hdel v hmsg) v
      · rw [if_neg hkey, if_neg (Ne.symm hkey), List.append_nil]
        exact hheld
  exact hrun.2

/-- Without expiry a replica holds just the entry of the newest message. -/
theorem lookup_deliverAll (m : Memory LruItem) (hm : Unlimited m) (k : Bytes)
    (hk : m.lookup k = none) (ds : List Delivery) (hok : ∀ msg ∈ messages k ds, Acceptable msg) :
    (deliverAll m ds).lookup k =
      (newest Msg.stamp (messages k ds)).map fun w => LruItem.new w.entry := by
  have hds : ∀ d ∈ ds, d.key = k → Timely (fun x => x = 0) m d := by
    intro d hd hkey
    refine ⟨fun e he => expired_of_no_expiry he d.now, fun e he => ?_, fun v _ => ?_⟩
    · have hmem : d.msg ∈ messages k ds :=
        List.mem_map_of_mem (List.mem_filter.mpr ⟨hd, decide_eq_true hkey⟩)
      have hok' := hok d.msg hmem
      rw [he] at hok'
      exact Positive.no_expiry hok'
    · exact if_pos hm.tombstoneTTL
  have hheld := holding_deliverAll m hm.maxBytes k hk ds hds
  revert hheld
  generalize newest Msg.stamp (messages k ds) = held
  generalize (deliverAll m ds).lookup k = it
  rintro (_ | ⟨e, _⟩ | ⟨v, x, hx⟩)
  · rfl
  · rfl
  · rw [hx]
    rfl

/-- Reading a key that holds an entry which has not expired. -/
theorem observe_of_live (m : Memory LruItem) (k : Bytes) {now : ℤ} {e : Entry}
    (hexp : e.expired now = false) (hk : m.lookup k = some (LruItem.new e)) :
    observe m now k = ⟨if e.isTombstone then none else some e, some e, some e.version⟩ := by
  have hpeek := peek_of_unexpired (m.env now) (LruItem.new e) k hexp
  have hversion := peekVersion_of_unexpired (m.env now) (LruItem.new e) hexp
  simp only [observe, Memory.perform_ret, hk, hpeek, hversion]
  cases ht : e.isTombstone with
  | true =>
    rw [get_of_tombstone (m.env now) (LruItem.new e) k hexp ht]
    rfl
  | false =>
    rw [get_of_live (m.env now) (LruItem.new e) k hexp ht]
    rfl

theorem observe_of_none (m : Memory LruItem) (now : ℤ) (k : Bytes) (hk : m.lookup k = none) :
    observe m now k = ⟨none, none, none⟩ := by
  simp only [observe, Memory.perform_ret, hk, Store.get, Store.peek, peekVersion, Plan.skip]

/-- The newest message is what the messages settle on. -/
theorem settled_newest {msgs : List Msg} {w : Msg} (hw : newest Msg.stamp msgs = some w)
    (hok : ∀ e, w = .put e → e.isTombstone = false) : Settled msgs
      ⟨if w.entry.isTombstone then none else some w.entry, some w.entry, some w.entry.version⟩ := by
  obtain ⟨hmem, hmax⟩ := newest_eq_some _ hw
  cases w with
  | put e =>
    rw [Msg.entry, hok e rfl]
    refine Settled.put e hmem (fun e' he' => ?_) (fun v hv => ?_)
    · have := hmax _ he'
      simp only [Msg.stamp] at this
      omega
    · have := hmax _ hv
      simp only [Msg.stamp] at this
      omega
  | del v =>
    have htomb : (Msg.del v).entry.isTombstone = true := isTombstone_tombstone v 0
    rw [htomb]
    refine Settled.tombstone v hmem (fun e he => ?_) (fun v' hv' => ?_)
    · have := hmax _ he
      simp only [Msg.stamp] at this
      omega
    · have := hmax _ hv'
      simp only [Msg.stamp] at this
      omega

theorem stamp_injOn {msgs : List Msg}
    (heq : ∀ e e', .put e ∈ msgs → .put e' ∈ msgs → e.version = e'.version → e = e') :
    ∀ m ∈ msgs, ∀ m' ∈ msgs, m.stamp = m'.stamp → m = m' := by
  intro m hm m' hm' hstamp
  cases m with
  | put e =>
    cases m' with
    | put e' =>
      simp only [Msg.stamp] at hstamp
      rw [heq e e' hm hm' (by omega)]
    | del v =>
      simp only [Msg.stamp] at hstamp
      omega
  | del v =>
    cases m' with
    | put e =>
      simp only [Msg.stamp] at hstamp
      omega
    | del v' =>
      simp only [Msg.stamp] at hstamp
      rw [show v = v' by omega]

/-- Any two replicas that received the same messages for a key, in whatever
order and however often, agree on it, and on the put of the highest version or
a tombstone. -/
theorem replicas_converge (k : Bytes) (m₁ m₂ : Memory LruItem) (ds₁ ds₂ : List Delivery)
    (hm₁ : Unlimited m₁) (hm₂ : Unlimited m₂) (hk₁ : m₁.lookup k = none) (hk₂ : m₂.lookup k = none)
    (hpos : ∀ e, .put e ∈ messages k ds₁ → Positive e)
    (heq : ∀ e e', .put e ∈ messages k ds₁ → .put e' ∈ messages k ds₁ →
      e.version = e'.version → e = e')
    (hsame : ∀ msg, msg ∈ messages k ds₁ ↔ msg ∈ messages k ds₂) (now₁ now₂ : ℤ) :
    ∃ o, Settled (messages k ds₁) o ∧ observe (deliverAll m₁ ds₁) now₁ k = o ∧
      observe (deliverAll m₂ ds₂) now₂ k = o := by
  have hok₁ : ∀ msg ∈ messages k ds₁, Acceptable msg := by
    intro msg hmsg
    cases msg with
    | put e => exact hpos e hmsg
    | del v => trivial
  have hok₂ : ∀ msg ∈ messages k ds₂, Acceptable msg := fun msg hmsg =>
    hok₁ msg ((hsame msg).mpr hmsg)
  have hlook₁ := lookup_deliverAll m₁ hm₁ k hk₁ ds₁ hok₁
  have hlook₂ := lookup_deliverAll m₂ hm₂ k hk₂ ds₂ hok₂
  rw [← newest_congr Msg.stamp hsame (stamp_injOn heq)] at hlook₂
  cases hw : newest Msg.stamp (messages k ds₁) with
  | none =>
    rw [hw, Option.map_none] at hlook₁ hlook₂
    exact ⟨_, Settled.nothing ((newest_eq_none _).mp hw), observe_of_none _ now₁ k hlook₁,
      observe_of_none _ now₂ k hlook₂⟩
  | some w =>
    rw [hw, Option.map_some] at hlook₁ hlook₂
    have hwok := hok₁ w (newest_eq_some _ hw).1
    have hlive := expired_of_no_expiry hwok.no_expiry
    have hput : ∀ e, w = .put e → e.isTombstone = false := by
      rintro e rfl
      exact Positive.not_tombstone hwok
    exact ⟨_, settled_newest hw hput, observe_of_live _ k (hlive now₁) hlook₁,
      observe_of_live _ k (hlive now₂) hlook₂⟩

/-- Two puts around a delete, delivered in order to one replica and out of order
and repeatedly to another. -/
theorem replicas_converge_put_del_put :
    let put₁ : Delivery := ⟨1, [107], .put ⟨[1], 1, 0, 0⟩⟩
    let del₁ : Delivery := ⟨2, [107], .del 1⟩
    let put₂ : Delivery := ⟨3, [107], .put ⟨[2], 2, 0, 0⟩⟩
    ∃ o, Settled (messages [107] [put₁, del₁, put₂]) o ∧
      observe (deliverAll (Memory.newMemory 0 0) [put₁, del₁, put₂]) 9 [107] = o ∧
      observe (deliverAll (Memory.newMemory 0 0) [put₂, del₁, put₁, put₂, put₁]) 9 [107] = o := by
  intro put₁ del₁ put₂
  refine replicas_converge [107] _ _ [put₁, del₁, put₂] [put₂, del₁, put₁, put₂, put₁]
    ⟨Int.le_refl 0, Int.le_refl 0⟩ ⟨Int.le_refl 0, Int.le_refl 0⟩ rfl rfl ?_ ?_ ?_ 9 9
  · intro e he
    simp only [messages, put₁, del₁, put₂, decide_true, List.filter_cons_of_pos, List.filter_nil,
      List.map_cons, List.map_nil, List.mem_cons, Msg.put.injEq, reduceCtorEq, List.not_mem_nil,
      false_or, or_false] at he
    rcases he with rfl | rfl <;> exact ⟨rfl, rfl, rfl⟩
  · intro e e' he he' hv
    simp only [messages, put₁, del₁, put₂, decide_true, List.filter_cons_of_pos, List.filter_nil,
      List.map_cons, List.map_nil, List.mem_cons, Msg.put.injEq, reduceCtorEq, List.not_mem_nil,
      false_or, or_false] at he he'
    rcases he with rfl | rfl <;> rcases he' with rfl | rfl <;> simp_all
  · intro msg
    simp [messages, put₁, del₁, put₂]
    tauto

end Supercache.Convergence
