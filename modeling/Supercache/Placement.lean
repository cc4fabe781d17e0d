import Supercache.Ring

/-!
Placement of keys on a ring whose peers have one address each and share no
hash. The replicas of a key are a prefix of one list of all peers. That list is
given by the set of peers, and a further peer enters it at one place.
-/
namespace Supercache

open Wire Successors

/-- Peers with an identity and one address each, no two of which share a hash. -/
structure WellPlaced (vnodes : ℕ) (peers : List Peer) : Prop where
  named : ∀ p ∈ peers, p.id ≠ []
  addressed : ∀ p ∈ peers, ∀ q ∈ peers, p.id = q.id → p = q
  distinct : ∀ p ∈ peers, ∀ q ∈ peers, ∀ i < vnodes, ∀ j < vnodes,
    vnodeHash p.id i = vnodeHash q.id j → p.id = q.id

namespace Ring

section Placement

variable {r : Ring} {peers : List Peer} (h : WellPlaced r.vnodes peers) (key : Bytes)
include h

theorem peers_of_mem {p : Peer} (hp : p ∈ peers) : (r.setPeers peers).peers[p.id]? = some p := by
  obtain ⟨q, hq⟩ := r.peers_setPeers_of_mem peers hp (h.named p hp)
  obtain ⟨hmem, hid, -⟩ := r.peers_setPeers_of_some peers hq
  rw [hq, h.addressed q hmem p hp hid]

theorem peerAt_of_mem {p : Peer} (hp : p ∈ peers) : (r.setPeers peers).peerAt p.id = p := by
  rw [peerAt, peers_of_mem h hp, Option.getD_some]

theorem idAt_of_mem {p : Peer} (hp : p ∈ peers) {i : ℕ} (hi : i < r.vnodes) :
    vnodeHash p.id i ∈ (r.setPeers peers).keys ∧
      (r.setPeers peers).idAt (vnodeHash p.id i) = p.id := by
  have hkey : vnodeHash p.id i ∈ (r.setPeers peers).keys :=
    (r.mem_keys_setPeers peers).mpr
      ⟨p.id, (mem_vnodeEntries peers).mpr ⟨p, hp, rfl, h.named p hp, i, hi, rfl⟩⟩
  refine ⟨hkey, ?_⟩
  obtain ⟨q, hq, hid, -, j, hj, hhash⟩ := (mem_vnodeEntries peers).mp (r.idAt_setPeers peers hkey)
  rw [← hid] at hhash ⊢
  exact h.distinct q hq p hp j hj i hi hhash

/-- The walk meets every peer and nothing else. -/
theorem mem_places {id : Bytes} : id ∈ (r.setPeers peers).places key ↔ ∃ p ∈ peers, p.id = id := by
  rw [places, mem_labels]
  constructor
  · rintro ⟨hash, hhash, rfl⟩
    obtain ⟨p, hp, hid, -⟩ := (mem_vnodeEntries peers).mp (r.idAt_setPeers peers hhash)
    exact ⟨p, hp, hid⟩
  · rintro ⟨p, hp, rfl⟩
    obtain ⟨hkey, hid⟩ := idAt_of_mem h hp r.vnodes_pos
    exact ⟨_, hkey, hid⟩

theorem id_peerAt {id : Bytes} (hid : id ∈ (r.setPeers peers).places key) :
    (r.setPeers peers).peerAt id ∈ peers ∧ ((r.setPeers peers).peerAt id).id = id := by
  obtain ⟨p, hp, rfl⟩ := (mem_places h key).mp hid
  rw [peerAt_of_mem h hp]
  exact ⟨hp, rfl⟩

theorem map_id_places {ids : List Bytes} (hsub : ∀ id ∈ ids, id ∈ (r.setPeers peers).places key) :
    (ids.map (r.setPeers peers).peerAt).map Peer.id = ids := by
  rw [List.map_map]
  refine (List.map_congr_left fun id hid => ?_).trans (List.map_id ids)
  exact (id_peerAt h key (hsub id hid)).2

theorem mem_peers {id : Bytes} : id ∈ (r.setPeers peers).peers ↔ ∃ p ∈ peers, p.id = id := by
  rw [← Std.ExtTreeMap.isSome_getElem?_iff_mem, Option.isSome_iff_exists]
  constructor
  · rintro ⟨p, hp⟩
    obtain ⟨hmem, hid, -⟩ := r.peers_setPeers_of_some peers hp
    exact ⟨p, hmem, hid⟩
  · rintro ⟨p, hp, rfl⟩
    exact ⟨p, peers_of_mem h hp⟩

/-- The walk meets as many identities as there are peers. -/
theorem length_places : ((r.setPeers peers).places key).length = (r.setPeers peers).len := by
  rw [len, ← Std.ExtTreeMap.length_keys]
  refine List.Perm.length_eq ((List.perm_ext_iff_of_nodup (nodup_labels _ _ _)
    Std.ExtTreeMap.nodup_keys).mpr fun id => ?_)
  rw [Std.ExtTreeMap.mem_keys, mem_peers h]
  exact mem_places h key

theorem len_setPeers : (r.setPeers peers).len = peers.toFinset.card := by
  have hids := map_id_places h [] fun id hid => hid
  have hnodup : (((r.setPeers peers).places []).map (r.setPeers peers).peerAt).Nodup := by
    refine List.Nodup.of_map Peer.id ?_
    rw [hids]
    exact nodup_labels _ _ _
  have hsame : (((r.setPeers peers).places []).map (r.setPeers peers).peerAt).toFinset =
      peers.toFinset := by
    ext p
    rw [List.mem_toFinset, List.mem_toFinset, List.mem_map]
    constructor
    · rintro ⟨id, hid, rfl⟩
      exact (id_peerAt h [] hid).1
    · exact fun hp => ⟨p.id, (mem_places h []).mpr ⟨p, hp, rfl⟩, peerAt_of_mem h hp⟩
  rw [← length_places h [], ← hsame, List.toFinset_card_of_nodup hnodup, List.length_map]

variable (n : ℤ)

theorem replicas_eq : (r.setPeers peers).replicas key n =
    (((r.setPeers peers).places key).take n.toNat).map (r.setPeers peers).peerAt := by
  rw [replicas, replicasLocked_eq]
  congr 1
  rw [List.take_eq_take_iff, length_places h key]
  omega

theorem map_id_replicas : ((r.setPeers peers).replicas key n).map Peer.id =
    ((r.setPeers peers).places key).take n.toNat := by
  rw [replicas_eq h]
  exact map_id_places h key fun id hid => List.mem_of_mem_take hid

theorem length_replicas :
    ((r.setPeers peers).replicas key n).length = min n.toNat peers.toFinset.card := by
  rw [replicas_eq h, List.length_map, List.length_take, length_places h, len_setPeers h]

theorem mem_of_mem_replicas {p : Peer} (hp : p ∈ (r.setPeers peers).replicas key n) :
    p ∈ peers := by
  rw [replicas_eq h] at hp
  obtain ⟨id, hid, rfl⟩ := List.mem_map.mp hp
  exact (id_peerAt h key (List.mem_of_mem_take hid)).1

theorem head?_replicas (hn : 1 ≤ n) :
    ((r.setPeers peers).replicas key n).head? = (r.setPeers peers).owner key := by
  obtain ⟨m, hm⟩ : ∃ m, n.toNat = m + 1 := ⟨n.toNat - 1, by omega⟩
  rw [replicas_eq h, owner_eq, hm]
  cases hplaces : (r.setPeers peers).places key with
  | nil => simp
  | cons id rest =>
    obtain ⟨p, hp, rfl⟩ := (mem_places h key).mp (hplaces ▸ List.mem_cons_self)
    simp [peerAt_of_mem h hp, peers_of_mem h hp]

theorem replicas_isPrefix :
    (r.setPeers peers).replicas key n <+: (r.setPeers peers).replicas key (n + 1) := by
  rw [replicas_eq h, replicas_eq h]
  exact (List.take_prefix_take_left (by omega)).map _

/-- A replica is one of those listed. -/
theorem isReplica_iff (id : Bytes) : (r.setPeers peers).isReplica key id n = true ↔
    ∃ p ∈ (r.setPeers peers).replicas key n, p.id = id := by
  unfold isReplica
  by_cases hnone : id = [] ∨ n ≤ 0 ∨ (r.setPeers peers).keys.length = 0
  · rw [if_pos hnone]
    simp only [Bool.false_eq_true, false_iff]
    rintro ⟨p, hp, rfl⟩
    rcases hnone with hid | hn | hkeys
    · exact h.named p (mem_of_mem_replicas h key n hp) hid
    · rw [replicas_eq h, Int.toNat_of_nonpos hn] at hp
      simp at hp
    · rw [replicas, replicasLocked, if_pos (Or.inr (Or.inl hkeys))] at hp
      simp at hp
  · rw [if_neg hnone]
    by_cases hall : ↑(r.setPeers peers).peers.size ≤ n
    · rw [if_pos hall]
      have hlen : ((r.setPeers peers).places key).length ≤ n.toNat := by
        rw [length_places h key, len]
        omega
      rw [← List.mem_map, map_id_replicas h, List.take_of_length_le hlen, mem_places h,
        ← mem_peers h]
      exact Std.ExtTreeMap.contains_iff_mem
    · simp [hall, replicas]

theorem replicasExcept_eq (id : Bytes) : (r.setPeers peers).replicasExcept key id n =
    ((r.setPeers peers).replicas key n).filter fun p => p.id ≠ id := by
  simp only [replicasExcept]
  by_cases hnone : id = [] ∨ ((r.setPeers peers).replicasLocked key n).length = 0
  · rw [if_pos hnone]
    refine (List.filter_eq_self.mpr fun p hp => ?_).symm
    rcases hnone with rfl | hnil
    · simpa using h.named p (mem_of_mem_replicas h key n hp)
    · rw [List.length_eq_zero_iff.mp hnil] at hp
      simp at hp
  · rw [if_neg hnone]
    rfl

end Placement

section SameSet

variable {r r' : Ring} {peers peers' : List Peer} (hvnodes : r'.vnodes = r.vnodes)
  (h : WellPlaced r.vnodes peers) (hsame : ∀ p, p ∈ peers' ↔ p ∈ peers) (key : Bytes)
include h hvnodes hsame

omit hvnodes in
theorem wellPlaced_of_same : WellPlaced r.vnodes peers' where
  named p hp := h.named p ((hsame p).mp hp)
  addressed p hp q hq := h.addressed p ((hsame p).mp hp) q ((hsame q).mp hq)
  distinct p hp q hq := h.distinct p ((hsame p).mp hp) q ((hsame q).mp hq)

theorem places_of_same : (r'.setPeers peers').places key = (r.setPeers peers).places key := by
  have hentries : ∀ hash id, (hash, id) ∈ vnodeEntries r'.vnodes peers' ↔
      (hash, id) ∈ vnodeEntries r.vnodes peers := by
    intro hash id
    rw [mem_vnodeEntries, mem_vnodeEntries, hvnodes]
    simp only [hsame]
  refine labels_congr (r'.setPeers peers').sorted (r.setPeers peers).sorted (fun hash => ?_) ?_
  · rw [mem_keys_setPeers, mem_keys_setPeers]
    exact exists_congr fun id => hentries hash id
  · intro hash hhash
    obtain ⟨p, hp, hid, -, i, hi, heq⟩ :=
      (mem_vnodeEntries peers').mp (r'.idAt_setPeers peers' hhash)
    rw [← hid] at heq ⊢
    rw [← heq]
    exact (idAt_of_mem h ((hsame p).mp hp) (hvnodes ▸ hi)).2.symm

theorem replicas_of_same (n : ℤ) :
    (r'.setPeers peers').replicas key n = (r.setPeers peers).replicas key n := by
  have h' : WellPlaced r'.vnodes peers' := hvnodes ▸ wellPlaced_of_same h hsame
  rw [replicas_eq h', replicas_eq h, places_of_same hvnodes h hsame key]
  refine List.map_congr_left fun id hid => ?_
  obtain ⟨p, hp, rfl⟩ := (mem_places h key).mp (List.mem_of_mem_take hid)
  rw [peerAt_of_mem h hp, peerAt_of_mem h' ((hsame p).mpr hp)]

theorem owner_of_same : (r'.setPeers peers').owner key = (r.setPeers peers).owner key := by
  have h' : WellPlaced r'.vnodes peers' := hvnodes ▸ wellPlaced_of_same h hsame
  rw [← head?_replicas h' key 1 le_rfl, ← head?_replicas h key 1 le_rfl,
    replicas_of_same hvnodes h hsame key 1]

end SameSet

/-- For peers with one address each that share no hash: the replicas of a key are distinct, as
many as asked for and available, the owner first, and asking for one more only adds at the end.
Membership and exclusion agree with that list. The order and repetition of the list of peers do
not matter. -/
theorem placement_consistent (r : Ring) (peers : List Peer) (hne : peers ≠ [])
    (h : WellPlaced r.vnodes peers) (key : Bytes) (n : ℤ) :
    (((r.setPeers peers).replicas key n).map Peer.id).Nodup ∧
    ((r.setPeers peers).replicas key n).length = min (max n 0).toNat peers.toFinset.card ∧
    (1 ≤ n → ∃ p, (r.setPeers peers).owner key = some p ∧
      ((r.setPeers peers).replicas key n).head? = some p) ∧
    (r.setPeers peers).replicas key n <+: (r.setPeers peers).replicas key (n + 1) ∧
    (∀ id, (r.setPeers peers).isReplica key id n = true ↔
      ∃ p ∈ (r.setPeers peers).replicas key n, p.id = id) ∧
    (∀ id, (r.setPeers peers).replicasExcept key id n =
      ((r.setPeers peers).replicas key n).filter fun p => p.id ≠ id) ∧
    ∀ (r' : Ring) (peers' : List Peer), r'.vnodes = r.vnodes → (∀ p, p ∈ peers' ↔ p ∈ peers) →
      (r'.setPeers peers').owner key = (r.setPeers peers).owner key ∧
      (r'.setPeers peers').replicas key n = (r.setPeers peers).replicas key n ∧
      (∀ id, (r'.setPeers peers').isReplica key id n = (r.setPeers peers).isReplica key id n) ∧
      ∀ id, (r'.setPeers peers').replicasExcept key id n =
        (r.setPeers peers).replicasExcept key id n := by
  refine ⟨?_, ?_, fun hn => ?_, replicas_isPrefix h key n, isReplica_iff h key n,
    replicasExcept_eq h key n, fun r' peers' hvnodes hsame => ?_⟩
  · rw [map_id_replicas h]
    exact (nodup_labels _ _ _).sublist (List.take_sublist _ _)
  · rw [length_replicas h]
    congr 1
    omega
  · obtain ⟨p, hp⟩ := List.exists_mem_of_ne_nil peers hne
    have hcard : 0 < peers.toFinset.card :=
      Finset.card_pos.mpr ⟨p, List.mem_toFinset.mpr hp⟩
    have hlen := length_replicas h key n
    obtain ⟨q, rest, hcons⟩ := List.exists_cons_of_length_pos
      (show 0 < ((r.setPeers peers).replicas key n).length by omega)
    have hhead : ((r.setPeers peers).replicas key n).head? = some q := by
      rw [hcons, List.head?_cons]
    exact ⟨q, (head?_replicas h key n hn).symm.trans hhead, hhead⟩
  · have h' : WellPlaced r'.vnodes peers' := hvnodes ▸ wellPlaced_of_same h hsame
    have hreps := replicas_of_same hvnodes h hsame key n
    refine ⟨owner_of_same hvnodes h hsame key, hreps, fun id => ?_, fun id => ?_⟩
    · rw [Bool.eq_iff_iff, isReplica_iff h', isReplica_iff h, hreps]
    · rw [replicasExcept_eq h', replicasExcept_eq h, hreps]

def pair : List Peer :=
  [⟨ascii "b", ascii "b:7"⟩, ⟨ascii "a", ascii "a:7"⟩, ⟨ascii "b", ascii "b:7"⟩]

theorem wellPlaced_pair : WellPlaced (new 2).vnodes pair :=
  ⟨by decide +kernel, by decide +kernel, by decide +kernel⟩

/-- A ring of two peers. -/
theorem placement_consistent_pair :
    (((new 2).setPeers pair).replicas (ascii "k") 5).length = 2 ∧
      (((new 2).setPeers pair).replicas (ascii "k") 5).map Peer.id = [ascii "a", ascii "b"] :=
  ⟨(placement_consistent (new 2) pair (by decide) wellPlaced_pair (ascii "k") 5).2.1.trans
    (by decide +kernel), by decide +kernel⟩

section Added

variable {r r' : Ring} {peers peers' : List Peer} {x : Peer} (hvnodes : r'.vnodes = r.vnodes)
  (h' : WellPlaced r.vnodes peers') (hadd : ∀ p, p ∈ peers' ↔ p = x ∨ p ∈ peers) (hx : x ∉ peers)
  (key : Bytes)
include h' hadd

theorem wellPlaced_of_added : WellPlaced r.vnodes peers where
  named p hp := h'.named p ((hadd p).mpr (Or.inr hp))
  addressed p hp q hq := h'.addressed p ((hadd p).mpr (Or.inr hp)) q ((hadd q).mpr (Or.inr hq))
  distinct p hp q hq := h'.distinct p ((hadd p).mpr (Or.inr hp)) q ((hadd q).mpr (Or.inr hq))

include hx in
theorem id_ne_of_mem {p : Peer} (hp : p ∈ peers) : p.id ≠ x.id := by
  intro hid
  have heq := h'.addressed p ((hadd p).mpr (Or.inr hp)) x ((hadd x).mpr (Or.inl rfl)) hid
  exact hx (heq ▸ hp)

include hx hvnodes

/-- Without the hashes of the new peer the ring is the old one. -/
theorem places_of_added :
    ((r'.setPeers peers').places key).filter (· != x.id) = (r.setPeers peers).places key := by
  have hold := wellPlaced_of_added h' hadd
  have hnew : WellPlaced r'.vnodes peers' := hvnodes ▸ h'
  have hlabel : ∀ p ∈ peers, ∀ i < r.vnodes,
      (r'.setPeers peers').idAt (vnodeHash p.id i) = p.id := fun p hp i hi =>
    (idAt_of_mem hnew ((hadd p).mpr (Or.inr hp)) (hvnodes ▸ hi)).2
  rw [places, ← labels_filter]
  refine labels_congr ((r'.setPeers peers').sorted.sublist List.filter_sublist)
    (r.setPeers peers).sorted (fun hash => ?_) ?_
  · rw [List.mem_filter, r.mem_keys_setPeers peers]
    constructor
    · rintro ⟨hhash, hne⟩
      obtain ⟨p, hp, hid, hnil, i, hi, heq⟩ :=
        (mem_vnodeEntries peers').mp (r'.idAt_setPeers peers' hhash)
      rcases (hadd p).mp hp with rfl | hp
      · exact absurd hid.symm (by simpa using hne)
      · exact ⟨_, (mem_vnodeEntries peers).mpr ⟨p, hp, hid, hnil, i, hvnodes ▸ hi, heq⟩⟩
    · rintro ⟨id, hid⟩
      obtain ⟨p, hp, rfl, hnil, i, hi, rfl⟩ := (mem_vnodeEntries peers).mp hid
      refine ⟨(idAt_of_mem hnew ((hadd p).mpr (Or.inr hp)) (hvnodes ▸ hi)).1, ?_⟩
      rw [hlabel p hp i hi]
      simpa using id_ne_of_mem h' hadd hx hp
  · intro hash hhash
    obtain ⟨hhash, hne⟩ := List.mem_filter.mp hhash
    obtain ⟨p, hp, hid, hnil, i, hi, heq⟩ :=
      (mem_vnodeEntries peers').mp (r'.idAt_setPeers peers' hhash)
    rcases (hadd p).mp hp with rfl | hp
    · exact absurd hid.symm (by simpa using hne)
    · rw [← hid] at heq ⊢
      rw [← heq]
      exact (idAt_of_mem hold hp (hvnodes ▸ hi)).2.symm

/-- Without the new peer the old places remain. -/
theorem replicasExcept_of_added (n : ℤ) : (r'.setPeers peers').replicasExcept key x.id n =
    ((((r'.setPeers peers').places key).take n.toNat).filter (· != x.id)).map
      (r.setPeers peers).peerAt := by
  have hold := wellPlaced_of_added h' hadd
  have hnew : WellPlaced r'.vnodes peers' := hvnodes ▸ h'
  rw [replicasExcept_eq hnew, replicas_eq hnew, List.filter_map]
  have hids : ∀ id ∈ ((r'.setPeers peers').places key).take n.toNat,
      ((fun p : Peer => decide (p.id ≠ x.id)) ∘ (r'.setPeers peers').peerAt) id =
        (id != x.id) := by
    intro id hid
    rw [Function.comp_apply, (id_peerAt hnew key (List.mem_of_mem_take hid)).2]
    by_cases heq : id = x.id <;> simp [heq]
  rw [List.filter_congr hids]
  refine List.map_congr_left fun id hid => ?_
  obtain ⟨hmem, hne⟩ := List.mem_filter.mp hid
  obtain ⟨p, hp, rfl⟩ := (mem_places hnew key).mp (List.mem_of_mem_take hmem)
  rw [peerAt_of_mem hnew hp]
  rcases (hadd p).mp hp with rfl | hp
  · simp at hne
  · rw [peerAt_of_mem hold hp]

theorem owner_of_added : (r'.setPeers peers').owner key = some x ∨
    (r'.setPeers peers').owner key = (r.setPeers peers).owner key := by
  have hold := wellPlaced_of_added h' hadd
  have hnew : WellPlaced r'.vnodes peers' := hvnodes ▸ h'
  have hplaces := places_of_added hvnodes h' hadd hx key
  rw [owner_eq, owner_eq, ← hplaces]
  cases hwalk : (r'.setPeers peers').places key with
  | nil => simp
  | cons id rest =>
    obtain ⟨p, hp, rfl⟩ := (mem_places hnew key).mp (hwalk ▸ List.mem_cons_self)
    rcases (hadd p).mp hp with rfl | hmem
    · exact Or.inl (by simpa using peers_of_mem hnew hp)
    · have hne : (p.id != x.id) = true := by simpa using id_ne_of_mem h' hadd hx hmem
      exact Or.inr (by simp [hne, peers_of_mem hnew hp, peers_of_mem hold hmem])

end Added

/-- A peer that joins takes over a key or leaves it with its owner, and the other replicas of a
key are those it had before, without at most the last. Read backwards, this is what happens when
a peer leaves. -/
theorem minimal_disruption (r r' : Ring) (hvnodes : r'.vnodes = r.vnodes)
    (peers peers' : List Peer) (x : Peer) (hx : x ∉ peers)
    (hadd : ∀ p, p ∈ peers' ↔ p = x ∨ p ∈ peers) (h : WellPlaced r.vnodes peers')
    (key : Bytes) (n : ℤ) :
    ((r'.setPeers peers').owner key = some x ∨
      (r'.setPeers peers').owner key = (r.setPeers peers).owner key) ∧
    (r'.setPeers peers').replicasExcept key x.id n <+: (r.setPeers peers).replicas key n ∧
    ((r.setPeers peers).replicas key n).length ≤
      ((r'.setPeers peers').replicasExcept key x.id n).length + 1 := by
  have hold := wellPlaced_of_added h hadd
  obtain ⟨hinit, hlen⟩ := filter_take_prefix
    (nodup_labels (hashString key) (r'.setPeers peers').idAt (r'.setPeers peers').keys) x.id n.toNat
  have hplaces := places_of_added hvnodes h hadd hx key
  refine ⟨owner_of_added hvnodes h hadd hx key, ?_⟩
  rw [replicasExcept_of_added hvnodes h hadd hx, replicas_eq hold, ← hplaces]
  refine ⟨hinit.map _, ?_⟩
  rw [List.length_map, List.length_map]
  exact hlen

/-- A peer that joins becomes the owner and pushes out the one before it. -/
theorem minimal_disruption_pair :
    ((new 2).setPeers pair).replicasExcept (ascii "k") (ascii "a") 1 <+:
        ((new 2).setPeers [⟨ascii "b", ascii "b:7"⟩]).replicas (ascii "k") 1 ∧
      ((new 2).setPeers pair).replicasExcept (ascii "k") (ascii "a") 1 = [] ∧
      ((new 2).setPeers pair).owner (ascii "k") = some ⟨ascii "a", ascii "a:7"⟩ :=
  ⟨(minimal_disruption (new 2) (new 2) rfl [⟨ascii "b", ascii "b:7"⟩] pair
    ⟨ascii "a", ascii "a:7"⟩ (by decide) (fun p => by simp [pair]; tauto) wellPlaced_pair
    (ascii "k") 1).2.1, by decide +kernel, by decide +kernel⟩

end Ring

end Supercache
