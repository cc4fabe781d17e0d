import Supercache.Cluster
import Supercache.Convergence
import Supercache.Placement

/-!
Rebalancing after a change of the ring. Every node takes stock of its keys and sends what it
finds, tombstones included, to the other replicas of the key. Nodes with the same ring agree on
who is sent a key and who keeps it. So once the copies have arrived, all replicas have the newest
of what any node had.
-/
namespace Supercache.Rebalance

open Wire Convergence Latest

section Fanout

variable {r : Ring} {peers : List Peer} (h : WellPlaced r.vnodes peers) (cfg : Config)
  (key self id : Bytes)

include h

/-- A node is sent a key by the others exactly if it counts itself among the replicas. -/
theorem exists_mem_fanout_iff :
    (∃ p ∈ (Cluster.mk self (r.setPeers peers)).replicaFanout cfg key true, p.id = id) ↔
      id ≠ self ∧ (Cluster.mk id (r.setPeers peers)).holdsReplica cfg key = true := by
  simp only [Cluster.replicaFanout, Cluster.replicaPeers, Cluster.holdsReplica, Bool.not_true,
    Bool.false_eq_true, false_and, if_false]
  rw [Ring.replicasExcept_eq h, Ring.isReplica_iff h]
  constructor
  · rintro ⟨p, hp, rfl⟩
    obtain ⟨hmem, hne⟩ := List.mem_filter.mp hp
    exact ⟨by simpa using hne, p, hmem, rfl⟩
  · rintro ⟨hne, p, hmem, rfl⟩
    exact ⟨p, List.mem_filter.mpr ⟨hmem, by simpa using hne⟩, rfl⟩

/-- Whoever has someone to send a key to has an owner of the key on the ring. -/
theorem owner_of_mem_fanout {p : Peer}
    (hp : p ∈ (Cluster.mk self (r.setPeers peers)).replicaPeers cfg key self) :
    (r.setPeers peers).owner key ≠ none := by
  intro hown
  rw [Cluster.replicaPeers, Ring.replicasExcept_eq h] at hp
  have hmem := List.mem_of_mem_filter hp
  generalize cfg.effectiveReplication _ = n at hmem
  have hn : 1 ≤ n := by
    by_contra hle
    rw [Ring.replicas_eq h, Int.toNat_of_nonpos (by omega)] at hmem
    simp at hmem
  have hhead := Ring.head?_replicas h key n hn
  rw [hown, List.head?_eq_none_iff] at hhead
  simp [hhead] at hmem

/-- Nodes with the same ring agree: a forced fan-out goes to those that count themselves among the
replicas, and any other fan-out goes to the same peers from the owner and to nobody from any
other node. -/
theorem fanout_meets_replicas :
    ((∃ p ∈ (Cluster.mk self (r.setPeers peers)).replicaFanout cfg key true, p.id = id) ↔
      id ≠ self ∧ (Cluster.mk id (r.setPeers peers)).holdsReplica cfg key = true) ∧
    (Cluster.mk self (r.setPeers peers)).replicaFanout cfg key false =
      if ((r.setPeers peers).owner key).map Peer.id = some self then
        (Cluster.mk self (r.setPeers peers)).replicaFanout cfg key true
      else [] := by
  refine ⟨exists_mem_fanout_iff h cfg key self id, ?_⟩
  simp only [Cluster.replicaFanout]
  cases hown : (r.setPeers peers).owner key with
  | some owner =>
    by_cases hself : owner.id = self
    · simp [hself]
    · simp [hself]
  | none =>
    have hnobody : (Cluster.mk self (r.setPeers peers)).replicaPeers cfg key self = [] :=
      List.eq_nil_iff_forall_not_mem.mpr fun p hp => owner_of_mem_fanout h cfg key self hp hown
    simp [hnobody]

end Fanout

/-- Two nodes that both keep the key: the owner sends it to the other one without being forced
to, the other one only when forced. -/
theorem fanout_meets_replicas_pair :
    let ring := (Ring.new 2).setPeers Ring.pair
    let cfg : Config := ⟨10, 10, 0, 0, 0, 0, 0⟩
    let a := Cluster.mk (ascii "a") ring
    let b := Cluster.mk (ascii "b") ring
    b.holdsReplica cfg (ascii "k") = true ∧
      (∃ p ∈ a.replicaFanout cfg (ascii "k") true, p.id = ascii "b") ∧
      a.replicaFanout cfg (ascii "k") false = a.replicaFanout cfg (ascii "k") true ∧
      b.replicaFanout cfg (ascii "k") false = [] := by
  intro ring cfg a b
  have hholds : b.holdsReplica cfg (ascii "k") = true := by decide +kernel
  have howner : (ring.owner (ascii "k")).map Peer.id = some (ascii "a") := by decide +kernel
  obtain ⟨hforced, hfanout⟩ := fanout_meets_replicas Ring.wellPlaced_pair cfg (ascii "k")
    (ascii "a") (ascii "b")
  obtain ⟨-, hfanout'⟩ := fanout_meets_replicas Ring.wellPlaced_pair cfg (ascii "k")
    (ascii "b") (ascii "a")
  refine ⟨hholds, hforced.mpr ⟨by decide +kernel, hholds⟩, hfanout.trans (if_pos howner),
    hfanout'.trans (if_neg ?_)⟩
  rw [howner]
  decide +kernel

def msgOf (ent : Entry) : Msg := if ent.isTombstone then .del ent.version else .put ent

def replicateToPeers (c : Cluster) (cfg : Config) (key : Bytes) (ent : Entry) : List (Peer × Msg) :=
  (c.replicaFanout cfg key true).map fun p => (p, msgOf ent)

def handoff (c : Cluster) (cfg : Config) (now : ℤ) (key : Bytes) (m : Mem) : List (Peer × Msg) :=
  (m.perform now key (Store.peek key)).2.elim [] (replicateToPeers c cfg key)

/-- A node, with the settings of its store and what it applied before and after it took stock
of a key. -/
structure Node where
  cluster : Cluster
  maxBytes : ℤ
  tombstoneTTL : ℤ
  now : ℤ
  before : List Delivery
  after : List Delivery

namespace Node

variable (n : Node)

def stock : Mem := deliverAll (Memory.newMemory n.maxBytes n.tombstoneTTL) n.before

def store : Mem := deliverAll (Memory.newMemory n.maxBytes n.tombstoneTTL) (n.before ++ n.after)

/-- All the node does happens before `T`, and neither a put it had nor a tombstone it wrote for
the key expires by then. -/
structure Lasting (T : ℤ) (key : Bytes) : Prop where
  stocked : n.now < T
  applied : ∀ d ∈ n.before ++ n.after, d.key = key → d.now < T
  puts : ∀ e, .put e ∈ messages key n.before → Entry.Lasts T e.expireAt
  deletes : ∀ d ∈ n.before ++ n.after, d.key = key → ∀ v, d.msg = .del v →
    n.tombstoneTTL ≤ 0 ∨ T ≤ d.now + n.tombstoneTTL

end Node

section Converges

variable {key : Bytes} {T : ℤ}

theorem mem_messages {ds : List Delivery} {d : Delivery} (hd : d ∈ ds) (hkey : d.key = key) :
    d.msg ∈ messages key ds :=
  List.mem_map_of_mem (List.mem_filter.mpr ⟨hd, decide_eq_true hkey⟩)

theorem messages_append_all (ds ds' : List Delivery) :
    messages key (ds ++ ds') = messages key ds ++ messages key ds' := by
  simp [messages]

/-- A node holds the newest of the messages it has applied. -/
theorem holding_applied {n : Node} (hmax : n.maxBytes ≤ 0) (h : n.Lasting T key)
    {ds : List Delivery} (hds : ds ⊆ n.before ++ n.after)
    (hputs : ∀ e, .put e ∈ messages key ds → Entry.Lasts T e.expireAt) :
    Holding (Entry.Lasts T) (newest Msg.stamp (messages key ds))
      ((deliverAll (Memory.newMemory n.maxBytes n.tombstoneTTL) ds).lookup key) := by
  refine holding_deliverAll _ hmax key rfl ds fun d hd hkey => ⟨fun e he => ?_, fun e he => ?_,
    fun v hv => ?_⟩
  · exact Entry.expired_of_lasts he (h.applied d (hds hd) hkey)
  · exact hputs e (he ▸ mem_messages hd hkey)
  · change Entry.Lasts T (if n.tombstoneTTL ≤ 0 then 0 else d.now + n.tombstoneTTL)
    by_cases hnone : n.tombstoneTTL ≤ 0
    · rw [if_pos hnone]
      exact Or.inl rfl
    · rw [if_neg hnone]
      exact Or.inr ((h.deletes d (hds hd) hkey v hv).resolve_left hnone)

/-- A node that has applied the newest message holds it. -/
theorem holding_newest {n : Node} (hmax : n.maxBytes ≤ 0) (h : n.Lasting T key)
    {ds : List Delivery} (hds : ds ⊆ n.before ++ n.after) {all : List Msg}
    (hall : messages key ds ⊆ all) (hputs : ∀ e, .put e ∈ all → Entry.Lasts T e.expireAt)
    (hinj : ∀ m ∈ all, ∀ m' ∈ all, m.stamp = m'.stamp → m = m') {w : Msg}
    (hw : newest Msg.stamp all = some w) (hmem : w ∈ messages key ds) :
    Holding (Entry.Lasts T) (some w)
      ((deliverAll (Memory.newMemory n.maxBytes n.tombstoneTTL) ds).lookup key) := by
  obtain ⟨hwall, hnewest⟩ := newest_eq_some _ hw
  have hheld := holding_applied hmax h hds fun e he => hputs e (hall he)
  rwa [newest_eq_of_max _ hmem (fun m hm => hnewest m (hall hm)) fun m hm =>
    hinj m (hall hm) w hwall] at hheld

def undated (o : Observed) : Observed :=
  { o with peek := o.peek.map fun e => if e.isTombstone then { e with expireAt := 0 } else e }

section Held

variable {w : Msg} {m : Mem} {now : ℤ} (h : Holding (Entry.Lasts T) (some w) (m.lookup key))
  (hnow : now < T) (hput : ∀ e, w = .put e → e.isTombstone = false)
include h hnow hput

theorem undated_observe : undated (observe m now key) =
      ⟨if w.entry.isTombstone then none else some w.entry, some w.entry, some w.entry.version⟩ := by
  generalize hlook : m.lookup key = it at h
  cases h with
  | put e he =>
    rw [observe_of_live m key (Entry.expired_of_lasts he hnow) hlook]
    simp [undated, Msg.entry, hput e rfl]
  | tombstone v x hx =>
    have hlive : Entry.expired ⟨[], v, x, flagTombstone⟩ now = false :=
      Entry.expired_of_lasts hx hnow
    rw [observe_of_live m key hlive hlook]
    simp [undated, Msg.entry, Msg.deleted, isTombstone_tombstone]

/-- What is found is sent as the message it came from. -/
theorem handoff_held (c : Cluster) (cfg : Config) :
    handoff c cfg now key m = (c.replicaFanout cfg key true).map fun p => (p, w) := by
  generalize hlook : m.lookup key = it at h
  cases h with
  | put e he =>
    have hpeek := congrArg Observed.peek
      (observe_of_live m key (Entry.expired_of_lasts he hnow) hlook)
    have hmsg : msgOf e = .put e := by rw [msgOf, hput e rfl, if_neg Bool.false_ne_true]
    simp only [observe] at hpeek
    rw [handoff, hpeek, Option.elim_some, replicateToPeers, hmsg]
  | tombstone v x hx =>
    have hlive : Entry.expired ⟨[], v, x, flagTombstone⟩ now = false :=
      Entry.expired_of_lasts hx hnow
    have hpeek := congrArg Observed.peek (observe_of_live m key hlive hlook)
    simp only [observe] at hpeek
    rw [handoff, hpeek, Option.elim_some, replicateToPeers, msgOf, isTombstone_tombstone,
      if_pos rfl]

end Held

/-- After every node has handed off a key and all copies have arrived, with nothing new written
meanwhile, the replicas of the key agree on the newest put or delete that any node had, until
the first put or tombstone of the key expires. -/
theorem rebalanced_replicas_agree (r : Ring) (peers : List Peer) (h : WellPlaced r.vnodes peers)
    (cfg : Config) (key : Bytes) (T : ℤ) (nodes : List Node)
    (hring : ∀ n ∈ nodes, n.cluster.ring = r.setPeers peers)
    (hids : ∀ n ∈ nodes, ∀ n' ∈ nodes, n.cluster.selfID = n'.cluster.selfID → n = n')
    (hmax : ∀ n ∈ nodes, n.maxBytes ≤ 0) (hlasting : ∀ n ∈ nodes, n.Lasting T key)
    (hpos : ∀ n ∈ nodes, ∀ e, .put e ∈ messages key n.before → e.isTombstone = false)
    (heq : ∀ n ∈ nodes, ∀ n' ∈ nodes, ∀ e e', .put e ∈ messages key n.before →
      .put e' ∈ messages key n'.before → e.version = e'.version → e = e')
    (hsent : ∀ n ∈ nodes, ∀ push ∈ handoff n.cluster cfg n.now key n.stock, ∀ n' ∈ nodes,
      push.1.id = n'.cluster.selfID → push.2 ∈ messages key n'.after)
    (hquiet : ∀ n ∈ nodes, ∀ msg ∈ messages key n.after, ∃ n' ∈ nodes,
      msg ∈ messages key n'.before) :
    ∃ o, Settled (nodes.flatMap fun n => messages key n.before) o ∧
      ∀ n ∈ nodes, n.cluster.holdsReplica cfg key = true →
        ∀ now < T, undated (observe n.store now key) = o := by
  have hall : ∀ msg, (∃ n ∈ nodes, msg ∈ messages key n.before) ↔
      msg ∈ nodes.flatMap fun n => messages key n.before := fun msg => by simp
  generalize (nodes.flatMap fun n => messages key n.before) = all at hall
  have hinj : ∀ m ∈ all, ∀ m' ∈ all, m.stamp = m'.stamp → m = m' := by
    refine stamp_injOn fun e e' he he' => ?_
    obtain ⟨n, hn, hmem⟩ := (hall _).mpr he
    obtain ⟨n', hn', hmem'⟩ := (hall _).mpr he'
    exact heq n hn n' hn' e e' hmem hmem'
  have hputs : ∀ e, .put e ∈ all → Entry.Lasts T e.expireAt := by
    intro e he
    obtain ⟨n, hn, hmem⟩ := (hall _).mpr he
    exact (hlasting n hn).puts e hmem
  have hsub : ∀ n ∈ nodes, messages key (n.before ++ n.after) ⊆ all := by
    intro n hn msg hmsg
    rw [messages_append_all, List.mem_append] at hmsg
    rcases hmsg with hmsg | hmsg
    · exact (hall msg).mp ⟨n, hn, hmsg⟩
    · exact (hall msg).mp (hquiet n hn msg hmsg)
  cases hw : newest Msg.stamp all with
  | none =>
    have hnil := (newest_eq_none _).mp hw
    refine ⟨_, .nothing hnil, fun n hn _ now _ => ?_⟩
    have hnone : messages key (n.before ++ n.after) = [] :=
      List.subset_nil.mp (hnil ▸ hsub n hn)
    have hheld := holding_applied (hmax n hn) (hlasting n hn) (List.Subset.refl _)
      (by simp [hnone])
    rw [hnone] at hheld
    rw [observe_of_none n.store now key hheld.eq_none]
    rfl
  | some w =>
    obtain ⟨source, hsource, hfrom⟩ := (hall w).mpr (newest_eq_some _ hw).1
    have hwput : ∀ e, w = .put e → e.isTombstone = false := by
      rintro e rfl
      exact hpos source hsource e hfrom
    refine ⟨_, settled_newest hw hwput, fun n hn hreplica now hnow => ?_⟩
    refine undated_observe (holding_newest (hmax n hn) (hlasting n hn) (List.Subset.refl _)
      (hsub n hn) hputs hinj hw ?_) hnow hwput
    rw [messages_append_all, List.mem_append]
    by_cases hsame : n = source
    · exact Or.inl (hsame ▸ hfrom)
    -- the node that has the newest message sends it to this one
    have hstock := holding_newest (hmax source hsource) (hlasting source hsource)
      (List.subset_append_left _ _) (fun msg hmsg => (hall msg).mp ⟨source, hsource, hmsg⟩)
      hputs hinj hw hfrom
    have hne : n.cluster.selfID ≠ source.cluster.selfID := fun heq =>
      hsame (hids n hn source hsource heq)
    have hcluster : ∀ m ∈ nodes, m.cluster = ⟨m.cluster.selfID, r.setPeers peers⟩ := fun m hm => by
      rw [← hring m hm]
    rw [hcluster n hn] at hreplica
    obtain ⟨p, hp, hid⟩ := (exists_mem_fanout_iff h cfg key _ _).mpr ⟨hne, hreplica⟩
    refine Or.inr (hsent source hsource (p, w) ?_ n hn hid)
    rw [Node.stock, handoff_held hstock (hlasting source hsource).stocked hwput,
      hcluster source hsource]
    exact List.mem_map_of_mem hp

/-- A node has a tombstone for the key, and a returning one still has the value. Both keep
tombstones for five minutes. -/
def returning : List Node :=
  let ring := (Ring.new 2).setPeers Ring.pair
  let ttl : ℤ := 300000000000
  let put : Delivery := ⟨1, ascii "k", .put ⟨[1], 1, 0, 0⟩⟩
  let del : Delivery := ⟨2, ascii "k", .del 1⟩
  [⟨⟨ascii "a", ring⟩, 0, ttl, 3, [put, del], [put]⟩,
    ⟨⟨ascii "b", ring⟩, 0, ttl, 3, [put], [{ del with now := 5 }]⟩]

/-- The deleted key stays deleted. -/
theorem rebalanced_returning :
    ∃ o, Settled (returning.flatMap fun n => messages (ascii "k") n.before) o ∧
      ∀ n ∈ returning, undated (observe n.store 200000000000 (ascii "k")) = o := by
  have hputs : ∀ n ∈ returning, ∀ e, .put e ∈ messages (ascii "k") n.before →
      e = ⟨[1], 1, 0, 0⟩ := by
    simp [returning, messages]
  have hids : ∀ n ∈ returning, ∀ n' ∈ returning, n.cluster.selfID = n'.cluster.selfID → n = n' := by
    simp [returning, show ascii "a" ≠ ascii "b" by decide, show ascii "b" ≠ ascii "a" by decide]
  have htimes : ∀ n ∈ returning, n.now < 300000000001 ∧ ∀ d ∈ n.before ++ n.after,
      d.now < 300000000001 ∧ 300000000001 ≤ d.now + n.tombstoneTTL := by
    decide +kernel
  have hlasting : ∀ n ∈ returning, n.Lasting 300000000001 (ascii "k") := fun n hn =>
    { stocked := (htimes n hn).1
      applied := fun d hd _ => ((htimes n hn).2 d hd).1
      puts := fun e he => Or.inl (by rw [hputs n hn e he])
      deletes := fun d hd _ _ _ => Or.inr ((htimes n hn).2 d hd).2 }
  obtain ⟨o, hsettled, hagree⟩ := rebalanced_replicas_agree (Ring.new 2) Ring.pair
    Ring.wellPlaced_pair ⟨10, 10, 0, 0, 0, 0, 0⟩ (ascii "k") 300000000001 returning
    (by simp [returning]) hids (by simp [returning]) hlasting
    (fun n hn e he => by rw [hputs n hn e he]; rfl)
    (fun n hn n' hn' e e' he he' _ => (hputs n hn e he).trans (hputs n' hn' e' he').symm)
    (by decide +kernel) (by decide +kernel)
  refine ⟨o, hsettled, fun n hn => hagree n hn ?_ 200000000000 (by decide)⟩
  revert n
  decide +kernel

end Converges

end Supercache.Rebalance
