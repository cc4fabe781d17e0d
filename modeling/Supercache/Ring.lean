import Supercache.Sketches
import Supercache.Successors

/-!
The consistent hash ring. Every peer stands at the hashes of its virtual nodes;
a key is owned by the peer at the first hash that is not below its own, and its
replicas are the first peers met on the way round. Placement depends on the set
of peers alone, and a new peer only displaces the last replica of a key.
-/
namespace Supercache

open Wire Successors

structure Peer where
  id : Bytes
  addr : Bytes
deriving DecidableEq

def hashString (s : Bytes) : ℕ := (Fnv.hash64a s).toNat

def itoaLoop : ℕ → ℕ → Bytes → Bytes
  | 0, _, b => b
  | pos + 1, i, b => if 0 < i then itoaLoop pos (i / 10) (UInt8.ofNat (48 + i % 10) :: b) else b

def itoa (i : ℕ) : Bytes := if i = 0 then ascii "0" else itoaLoop 20 i []

def vnodeHash (id : Bytes) (i : ℕ) : ℕ := hashString (id ++ ascii "#" ++ itoa i)

structure Ring where
  vnodes : ℕ
  keys : List ℕ
  hashToID : Std.ExtTreeMap ℕ Bytes compare
  peers : ByteMap.Map Peer
  gen : ℕ
  vnodes_pos : 0 < vnodes
  sorted : keys.Pairwise (· ≤ ·)

namespace Ring

def new (vnodes : ℤ) : Ring where
  vnodes := if vnodes ≤ 0 then 64 else vnodes.toNat
  keys := []
  hashToID := ∅
  peers := ∅
  gen := 0
  vnodes_pos := by split <;> omega
  sorted := .nil

structure Members where
  keys : List ℕ
  hashToID : Std.ExtTreeMap ℕ Bytes compare
  peers : ByteMap.Map Peer

def hashes (vnodes : ℕ) (id : Bytes) : List ℕ := (List.range vnodes).map (vnodeHash id)

def Members.add (vnodes : ℕ) (m : Members) (p : Peer) : Members :=
  if p.id = [] then m
  else
    { keys := m.keys ++ hashes vnodes p.id
      hashToID := (hashes vnodes p.id).foldl (fun ids h => ids.insert h p.id) m.hashToID
      peers := m.peers.insert p.id p }

def members (vnodes : ℕ) (peers : List Peer) : Members :=
  peers.foldl (Members.add vnodes) ⟨[], ∅, ∅⟩

def setPeers (r : Ring) (peers : List Peer) : Ring :=
  let m := members r.vnodes peers
  { r with
    keys := m.keys.insertionSort (· ≤ ·)
    hashToID := m.hashToID
    peers := m.peers
    gen := r.gen + 1
    sorted := List.pairwise_insertionSort _ m.keys }

def idAt (r : Ring) (h : ℕ) : Bytes := (r.hashToID[h]?).getD []

def peerAt (r : Ring) (id : Bytes) : Peer := (r.peers[id]?).getD ⟨[], []⟩

def start (r : Ring) (key : Bytes) : ℕ :=
  let i := search r.keys.length fun i => decide (hashString key ≤ r.keys.getD i 0)
  if i = r.keys.length then 0 else i

def owner (r : Ring) (key : Bytes) : Option Peer :=
  if r.keys.length = 0 then none else r.peers[r.idAt (r.keys.getD (r.start key) 0)]?

def next (r : Ring) (i : ℕ) : ℕ := if i + 1 = r.keys.length then 0 else i + 1

def walk (r : Ring) (n : ℕ) : ℕ → ℕ → List Peer → List Bytes → List Peer
  | 0, _, out, _ => out
  | left + 1, i, out, seen =>
    if out.length < n then
      let id := r.idAt (r.keys.getD i 0)
      if id ∈ seen then walk r n left (r.next i) out seen
      else walk r n left (r.next i) (out ++ [r.peerAt id]) (id :: seen)
    else out

def replicasLocked (r : Ring) (key : Bytes) (n : ℤ) : List Peer :=
  if n ≤ 0 ∨ r.keys.length = 0 ∨ r.peers.size = 0 then []
  else
    let n := if r.peers.size < n then r.peers.size else n.toNat
    r.walk n r.keys.length (r.start key) [] []

def replicas (r : Ring) (key : Bytes) (n : ℤ) : List Peer := r.replicasLocked key n

def replicasExcept (r : Ring) (key id : Bytes) (n : ℤ) : List Peer :=
  let reps := r.replicasLocked key n
  if id = [] ∨ reps.length = 0 then reps else reps.filter fun p => p.id ≠ id

def isReplica (r : Ring) (key id : Bytes) (n : ℤ) : Bool :=
  if id = [] ∨ n ≤ 0 ∨ r.keys.length = 0 then false
  else if r.peers.size ≤ n then r.peers.contains id
  else (r.replicasLocked key n).any fun p => p.id = id

def len (r : Ring) : ℕ := r.peers.size

def places (r : Ring) (key : Bytes) : List Bytes := labels (hashString key) r.idAt r.keys

section Walk

variable (r : Ring) (key : Bytes)

theorem start_lt (hkeys : 0 < r.keys.length) : r.start key < r.keys.length := by
  have hle := search_le r.keys.length fun i => decide (hashString key ≤ r.keys.getD i 0)
  simp only [start]
  split <;> omega

theorem rotate_start : r.keys.rotate (r.start key) = clockwise (hashString key) r.keys :=
  rotate_search r.sorted (hashString key) 0

theorem next_lt {i : ℕ} (hi : i < r.keys.length) : r.next i < r.keys.length := by
  unfold next
  split <;> omega

/-- One step of the walk: the hash at the index, then those from the next index on. -/
theorem take_rotate {i left : ℕ} (hi : i < r.keys.length) (hleft : left + 1 ≤ r.keys.length) :
    (r.keys.rotate i).take (left + 1) =
      r.keys.getD i 0 :: (r.keys.rotate (r.next i)).take left := by
  have hnext : r.keys.rotate (r.next i) = r.keys.drop (i + 1) ++ r.keys.take (i + 1) := by
    unfold next
    by_cases hend : i + 1 = r.keys.length
    · rw [if_pos hend]
      rw [hend, List.rotate_zero, List.drop_length, List.take_length, List.nil_append]
    · rw [if_neg hend]
      exact List.rotate_eq_drop_append_take (by omega)
  have hdrop : r.keys.drop i = r.keys.getD i 0 :: r.keys.drop (i + 1) := by
    rw [List.getD_eq_getElem _ _ hi]
    exact List.drop_eq_getElem_cons hi
  have htake : r.keys.take (i + 1) = r.keys.take i ++ [r.keys.getD i 0] := by
    rw [List.getD_eq_getElem _ _ hi]
    exact (List.take_append_getElem hi).symm
  have hlen : left ≤ (r.keys.drop (i + 1) ++ r.keys.take i).length := by
    rw [List.length_append, List.length_drop, List.length_take]
    omega
  rw [List.rotate_eq_drop_append_take hi.le, hnext, hdrop, htake, List.cons_append,
    List.take_succ_cons, ← List.append_assoc, List.take_append_of_le_length hlen]

/-- The walk adds the identities it has not seen, in the order in which it meets them. -/
theorem walk_eq (n left i : ℕ) (out : List Peer) (seen : List Bytes) (hi : i < r.keys.length)
    (hleft : left ≤ r.keys.length) :
    r.walk n left i out seen = out ++ ((((((r.keys.rotate i).take left).map r.idAt).eraseDups.filter
      fun id => decide (id ∉ seen)).take (n - out.length)).map r.peerAt) := by
  induction left generalizing i out seen with
  | zero => simp [walk]
  | succ left ih =>
    rw [r.take_rotate hi hleft, List.map_cons, List.eraseDups_cons, eraseDups_filter]
    unfold walk
    generalize r.idAt (r.keys.getD i 0) = id
    by_cases hroom : out.length < n
    · rw [if_pos hroom]
      by_cases hseen : id ∈ seen
      · have hskip : ∀ id', (decide (id' ∉ seen) && !id' == id) = decide (id' ∉ seen) := by
          intro id'
          by_cases heq : id' = id <;> simp [heq, hseen]
        rw [if_pos hseen, ih _ _ _ (r.next_lt hi) (by omega),
          List.filter_cons_of_neg (by simp [hseen]), List.filter_filter]
        simp only [hskip]
      · have hadd : ∀ id', (decide (id' ∉ seen) && !id' == id) = decide (id' ∉ id :: seen) := by
          intro id'
          by_cases heq : id' = id <;> simp [heq]
        obtain ⟨room, hroom'⟩ : ∃ room, n - out.length = room + 1 := ⟨n - out.length - 1, by omega⟩
        have hless : n - (out ++ [r.peerAt id]).length = room := by
          rw [List.length_append, List.length_singleton]
          omega
        rw [if_neg hseen, ih _ _ _ (r.next_lt hi) (by omega),
          List.filter_cons_of_pos (by simp [hseen]), List.filter_filter, hless, hroom',
          List.take_succ_cons, List.map_cons, List.append_assoc, List.singleton_append]
        simp only [hadd]
    · rw [if_neg hroom, Nat.sub_eq_zero_of_le (by omega), List.take_zero, List.map_nil,
        List.append_nil]

/-- The replicas are the first places of the key. -/
theorem replicasLocked_eq (n : ℤ) :
    r.replicasLocked key n = ((r.places key).take (min n.toNat r.len)).map r.peerAt := by
  unfold replicasLocked
  by_cases hnone : n ≤ 0 ∨ r.keys.length = 0 ∨ r.peers.size = 0
  · rw [if_pos hnone]
    rcases hnone with hn | hkeys | hpeers
    · simp [Int.toNat_of_nonpos hn]
    · simp [places, labels, clockwise, List.length_eq_zero_iff.mp hkeys]
    · simp [len, hpeers]
  · rw [if_neg hnone]
    rw [not_or, not_or] at hnone
    obtain ⟨hn, hkeys, hpeers⟩ := hnone
    have hmin : (if r.peers.size < n then r.peers.size else n.toNat) = min n.toNat r.len := by
      unfold len
      split <;> omega
    simp only [hmin]
    rw [r.walk_eq _ _ _ _ _ (r.start_lt key (by omega)) le_rfl, r.rotate_start key]
    have hall : (clockwise (hashString key) r.keys).take r.keys.length =
        clockwise (hashString key) r.keys := by
      rw [← r.rotate_start key, ← List.length_rotate r.keys (r.start key), List.take_length]
    simp [hall, places, labels]

theorem owner_eq : r.owner key = (r.places key).head?.bind fun id => r.peers[id]? := by
  rw [places, head?_labels, ← r.rotate_start key]
  unfold owner
  by_cases hkeys : r.keys.length = 0
  · simp [List.length_eq_zero_iff.mp hkeys]
  · rw [if_neg hkeys]
    have hlt := r.start_lt key (by omega)
    rw [List.getD_eq_getElem _ _ hlt, List.head?_rotate hlt, List.getElem?_eq_getElem hlt]
    rfl

end Walk

section SetPeers

def vnodeEntries (vnodes : ℕ) (peers : List Peer) : List (ℕ × Bytes) :=
  (peers.filter fun p => p.id ≠ []).flatMap fun p => (hashes vnodes p.id).map fun h => (h, p.id)

def peerEntries (peers : List Peer) : List (Bytes × Peer) :=
  (peers.filter fun p => p.id ≠ []).map fun p => (p.id, p)

theorem foldl_add (vnodes : ℕ) (peers : List Peer) (m : Members) :
    peers.foldl (Members.add vnodes) m = ⟨m.keys ++ (vnodeEntries vnodes peers).map Prod.fst,
        (vnodeEntries vnodes peers).foldl (fun ids e => ids.insert e.1 e.2) m.hashToID,
        (peerEntries peers).foldl (fun ps e => ps.insert e.1 e.2) m.peers⟩ := by
  induction peers generalizing m with
  | nil => simp [vnodeEntries, peerEntries]
  | cons p peers ih =>
    rw [List.foldl_cons, ih]
    by_cases hp : p.id = []
    · simp [Members.add, hp, vnodeEntries, peerEntries]
    · simp [Members.add, hp, vnodeEntries, peerEntries, List.foldl_map, Function.comp_def]

/-- A key is looked up as one of its entries says, or was not written at all. -/
theorem getElem?_foldl_insert {κ V : Type} [Ord κ] [Std.TransOrd κ] [Std.LawfulEqOrd κ]
    (es : List (κ × V)) (m : Std.ExtTreeMap κ V compare) (k : κ) :
    (∃ v, (k, v) ∈ es ∧ (es.foldl (fun m e => m.insert e.1 e.2) m)[k]? = some v) ∨
      k ∉ es.map Prod.fst ∧ (es.foldl (fun m e => m.insert e.1 e.2) m)[k]? = m[k]? := by
  induction es generalizing m with
  | nil => exact Or.inr ⟨List.not_mem_nil, rfl⟩
  | cons e es ih =>
    rw [List.foldl_cons]
    rcases ih (m.insert e.1 e.2) with ⟨v, hmem, hv⟩ | ⟨hnot, heq⟩
    · exact Or.inl ⟨v, List.mem_cons_of_mem e hmem, hv⟩
    · rw [heq, Std.ExtTreeMap.getElem?_insert]
      by_cases hk : e.1 = k
      · subst hk
        exact Or.inl ⟨e.2, List.mem_cons_self, by simp⟩
      · refine Or.inr ⟨?_, by simp [hk]⟩
        simp only [List.map_cons, List.mem_cons, not_or]
        exact ⟨Ne.symm hk, hnot⟩

variable (r : Ring) (peers : List Peer)

theorem mem_vnodeEntries {vnodes : ℕ} {h : ℕ} {id : Bytes} : (h, id) ∈ vnodeEntries vnodes peers ↔
      ∃ p ∈ peers, p.id = id ∧ id ≠ [] ∧ ∃ i < vnodes, vnodeHash id i = h := by
  simp only [vnodeEntries, hashes, List.mem_flatMap, List.mem_filter, List.mem_map, List.mem_range,
    Prod.mk.injEq, decide_eq_true_eq]
  constructor
  · rintro ⟨p, ⟨hp, hne⟩, -, ⟨i, hi, rfl⟩, rfl, rfl⟩
    exact ⟨p, hp, rfl, hne, i, hi, rfl⟩
  · rintro ⟨p, hp, rfl, hne, i, hi, rfl⟩
    exact ⟨p, ⟨hp, hne⟩, _, ⟨i, hi, rfl⟩, rfl, rfl⟩

theorem mem_keys_setPeers {h : ℕ} :
    h ∈ (r.setPeers peers).keys ↔ ∃ id, (h, id) ∈ vnodeEntries r.vnodes peers := by
  simp only [setPeers, members, foldl_add, List.nil_append]
  rw [List.mem_insertionSort, List.mem_map]
  constructor
  · rintro ⟨⟨h', id⟩, hmem, rfl⟩
    exact ⟨id, hmem⟩
  · rintro ⟨id, hmem⟩
    exact ⟨(h, id), hmem, rfl⟩

/-- Every hash of the ring belongs to one of the peers that stand there. -/
theorem idAt_setPeers {h : ℕ} (hh : h ∈ (r.setPeers peers).keys) :
    (h, (r.setPeers peers).idAt h) ∈ vnodeEntries r.vnodes peers := by
  obtain ⟨id, hid⟩ := (r.mem_keys_setPeers peers).mp hh
  simp only [idAt, setPeers, members, foldl_add]
  rcases getElem?_foldl_insert (vnodeEntries r.vnodes peers) ∅ h with ⟨v, hmem, hv⟩ | ⟨hnot, -⟩
  · rw [hv]
    exact hmem
  · exact absurd (List.mem_map.mpr ⟨(h, id), hid, rfl⟩) hnot

theorem peers_setPeers_of_some {id : Bytes} {p : Peer}
    (hp : (r.setPeers peers).peers[id]? = some p) : p ∈ peers ∧ p.id = id ∧ id ≠ [] := by
  simp only [setPeers, members, foldl_add] at hp
  rcases getElem?_foldl_insert (peerEntries peers) ∅ id with ⟨v, hmem, hv⟩ | ⟨-, hnone⟩
  · rw [hv, Option.some.injEq] at hp
    subst hp
    simp only [peerEntries, List.mem_map, List.mem_filter, Prod.mk.injEq, decide_eq_true_eq] at hmem
    obtain ⟨p, ⟨hp, hne⟩, rfl, rfl⟩ := hmem
    exact ⟨hp, rfl, hne⟩
  · rw [hnone] at hp
    simp at hp

theorem peers_setPeers_of_mem {p : Peer} (hp : p ∈ peers) (hid : p.id ≠ []) :
    ∃ q, (r.setPeers peers).peers[p.id]? = some q := by
  simp only [setPeers, members, foldl_add]
  rcases getElem?_foldl_insert (peerEntries peers) ∅ p.id with ⟨v, -, hv⟩ | ⟨hnot, -⟩
  · exact ⟨v, hv⟩
  · refine absurd (List.mem_map.mpr ⟨(p.id, p), ?_, rfl⟩) hnot
    simp only [peerEntries, List.mem_map, List.mem_filter, decide_eq_true_eq]
    exact ⟨p, ⟨hp, hid⟩, rfl⟩

end SetPeers

end Ring

end Supercache
