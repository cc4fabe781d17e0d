import Supercache.Ring
import Supercache.Entry
import Supercache.ByteMap
import Supercache.Schedule

/-!
Hinted handoff. An entry that a peer did not accept is queued for it under an
identity, one hint for each identity, and replayed until the peer accepts it.
The flush loop looks at the oldest hint, replays it without holding the lock,
and then takes what is queued under its identity off the queue.
-/
namespace Supercache.Hints

open Wire ByteMap Schedule

def hintID (ks key : Bytes) (ent : Entry) : Bytes :=
  if ent.has flagBloomAdd then ks ++ 0 :: (key ++ 0 :: ent.value) else ks ++ 0 :: key

def hintNewer (a b : Entry) : Bool :=
  if a.version ≠ b.version then b.version < a.version else a.isTombstone && !b.isTombstone

theorem hintNewer_self (a : Entry) : hintNewer a a = false := by
  simp [hintNewer]

structure FanoutHint where
  peer : Peer
  ks : Bytes
  key : Bytes
  ent : Entry
  ringGen : ℕ
deriving DecidableEq

def FanoutHint.id (h : FanoutHint) : Bytes := hintID h.ks h.key h.ent

def Filed (order : List Bytes) (items : Map FanoutHint) : Prop :=
  ∀ id h, items[id]? = some h → id ∈ order ∧ h.id = id

structure PeerHintQ where
  order : List Bytes
  items : Map FanoutHint
  filed : Filed order items

section Queue

variable {order : List Bytes} {items : Map FanoutHint} {id : Bytes} {h x : FanoutHint}

def makeRoom (hintMax : ℕ) : List Bytes → Map FanoutHint → List Bytes × Map FanoutHint
  | [], items => ([], items)
  | id :: order, items =>
    if hintMax ≤ order.length + 1 then makeRoom hintMax order (items.erase id)
    else (id :: order, items)

def overflow (hintMax : ℕ) (order : List Bytes) : List Bytes :=
  order.take (order.length + 1 - hintMax)

/-- The oldest identities go, and their hints with them. -/
theorem makeRoom_eq (hintMax : ℕ) (order : List Bytes) (items : Map FanoutHint) :
    (makeRoom hintMax order items).1 = order.drop (order.length + 1 - hintMax) ∧
      ∀ id, (makeRoom hintMax order items).2[id]? =
        if id ∈ overflow hintMax order then none else items[id]? := by
  induction order generalizing items with
  | nil => simp [makeRoom, overflow]
  | cons first order ih =>
    rw [makeRoom, overflow, List.length_cons]
    by_cases hfull : hintMax ≤ order.length + 1
    · rw [if_pos hfull]
      rw [Nat.succ_sub hfull, List.drop_succ_cons, List.take_succ_cons]
      refine ⟨(ih _).1, fun id => ?_⟩
      rw [(ih _).2, getElem?_erase, ← overflow]
      by_cases hid : first = id
      · simp [hid]
      · simp [hid, Ne.symm hid]
    · rw [if_neg hfull]
      rw [Nat.sub_eq_zero_of_le (by omega)]
      simp

theorem makeRoom_subset (hintMax : ℕ)
    (hx : (makeRoom hintMax order items).2[id]? = some x) :
    items[id]? = some x ∧ id ∉ overflow hintMax order := by
  rw [(makeRoom_eq hintMax order items).2] at hx
  by_cases hid : id ∈ overflow hintMax order
  · rw [if_pos hid] at hx
    cases hx
  · rw [if_neg hid] at hx
    exact ⟨hx, hid⟩

/-- A hint that is not among the dropped ones stays. -/
theorem makeRoom_keeps (hintMax : ℕ) (hx : items[id]? = some x) :
    (makeRoom hintMax order items).2[id]? = some x ∨ id ∈ overflow hintMax order := by
  rw [(makeRoom_eq hintMax order items).2, hx]
  by_cases hid : id ∈ overflow hintMax order
  · exact Or.inr hid
  · exact Or.inl (if_neg hid)

theorem Filed.makeRoom (hintMax : ℕ) (hfiled : Filed order items) :
    Filed (makeRoom hintMax order items).1 (makeRoom hintMax order items).2 := by
  intro k h hk
  obtain ⟨hk, hstays⟩ := makeRoom_subset hintMax hk
  obtain ⟨hmem, hid⟩ := hfiled k h hk
  rw [← List.take_append_drop (order.length + 1 - hintMax) order, List.mem_append] at hmem
  rw [(makeRoom_eq hintMax order items).1]
  exact ⟨hmem.resolve_left hstays, hid⟩

section

variable (hfiled : Filed order items)
include hfiled

theorem Filed.insert (hid : h.id = id) (hmem : id ∈ order) :
    Filed order (items.insert id h) := by
  intro k x hx
  rw [getElem?_insert] at hx
  by_cases hk : id = k
  · rw [if_pos hk] at hx
    cases hx
    exact ⟨hk ▸ hmem, hid.trans hk⟩
  · rw [if_neg hk] at hx
    exact hfiled k x hx

theorem Filed.push (h : FanoutHint) :
    Filed (order ++ [h.id]) (items.insert h.id h) := by
  have hmore : Filed (order ++ [h.id]) items := fun k x hx =>
    ⟨List.mem_append_left _ (hfiled k x hx).1, (hfiled k x hx).2⟩
  exact hmore.insert rfl (by simp)

theorem Filed.erase (id : Bytes) :
    Filed (order.erase id) (items.erase id) := by
  intro k x hx
  rw [getElem?_erase] at hx
  by_cases heq : id = k
  · rw [if_pos heq] at hx
    cases hx
  · rw [if_neg heq] at hx
    obtain ⟨hmem, hid⟩ := hfiled k x hx
    exact ⟨(List.mem_erase_of_ne (Ne.symm heq)).mpr hmem, hid⟩

theorem Filed.filter (f : Bytes → FanoutHint → Bool) :
    Filed (order.filter fun id => (items.filter f).contains id) (items.filter f) := by
  intro k x hx
  have hold : items[k]? = some x := by
    rw [Std.ExtTreeMap.getElem?_filter'] at hx
    exact (Option.filter_eq_some_iff.mp hx).1
  refine ⟨List.mem_filter.mpr ⟨(hfiled k x hold).1, ?_⟩, (hfiled k x hold).2⟩
  rw [Std.ExtTreeMap.contains_eq_isSome_getElem?, hx]
  rfl

end

namespace PeerHintQ

variable (q : PeerHintQ)

def empty : PeerHintQ := ⟨[], ∅, fun id h hid => by simp at hid⟩

def addOf (tomb old : FanoutHint) : Bool :=
  old.ks == tomb.ks && old.key == tomb.key && old.ent.has flagBloomAdd

def dropAdds (h : FanoutHint) : PeerHintQ :=
  if h.ent.isTombstone then
    let items := q.items.filter fun _ old => !addOf h old
    ⟨q.order.filter fun id => items.contains id, items, q.filed.filter _⟩
  else q

def deleted (h : FanoutHint) : Bool :=
  h.ent.has flagBloomAdd &&
    (q.items[hintID h.ks h.key ⟨[], 0, 0, flagTombstone⟩]?).any fun old =>
      old.ent.isTombstone && h.ent.version ≤ old.ent.version

def file (hintMax : ℕ) (h : FanoutHint) : PeerHintQ :=
  if hmem : h.id ∈ q.items then
    if hintNewer h.ent q.items[h.id].ent then
      ⟨q.order, q.items.insert h.id h,
        q.filed.insert rfl (q.filed h.id _ (Std.ExtTreeMap.getElem?_eq_some_getElem hmem)).1⟩
    else q
  else
    let room := makeRoom hintMax q.order q.items
    ⟨room.1 ++ [h.id], room.2.insert h.id h, (q.filed.makeRoom hintMax).push h⟩

def enqueue (hintMax : ℕ) (h : FanoutHint) : PeerHintQ :=
  let q := q.dropAdds h
  if q.deleted h then q else q.file hintMax h

def pop (id : Bytes) : PeerHintQ := ⟨q.order.erase id, q.items.erase id, q.filed.erase id⟩

def peek : Option FanoutHint := q.order.head?.bind fun id => q.items[id]?

variable {q}

theorem dropAdds_subset (hx : (q.dropAdds h).items[id]? = some x) : q.items[id]? = some x := by
  unfold dropAdds at hx
  split at hx
  · rw [Std.ExtTreeMap.getElem?_filter'] at hx
    exact (Option.filter_eq_some_iff.mp hx).1
  · exact hx

theorem dropAdds_keeps (h : FanoutHint) (hx : q.items[id]? = some x) :
    (q.dropAdds h).items[id]? = some x ∨ h.ent.isTombstone = true ∧ addOf h x = true := by
  unfold dropAdds
  by_cases htomb : h.ent.isTombstone
  · rw [if_pos htomb]
    cases hadd : addOf h x with
    | true => exact Or.inr ⟨htomb, rfl⟩
    | false =>
      refine Or.inl ?_
      rw [Std.ExtTreeMap.getElem?_filter', hx]
      simp [Option.filter, hadd]
  · rw [if_neg htomb]
    exact Or.inl hx

theorem file_subset (hintMax : ℕ) (hx : (q.file hintMax h).items[id]? = some x) :
    (x = h ∧ id = h.id) ∨ q.items[id]? = some x := by
  unfold file at hx
  split at hx
  · split at hx
    · rw [getElem?_insert] at hx
      by_cases hid : h.id = id
      · rw [if_pos hid] at hx
        exact Or.inl ⟨(Option.some.inj hx).symm, hid.symm⟩
      · rw [if_neg hid] at hx
        exact Or.inr hx
    · exact Or.inr hx
  · simp only [getElem?_insert] at hx
    by_cases hid : h.id = id
    · rw [if_pos hid] at hx
      exact Or.inl ⟨(Option.some.inj hx).symm, hid.symm⟩
    · rw [if_neg hid] at hx
      exact Or.inr (makeRoom_subset hintMax hx).1

/-- What can become of a queued hint when another is filed. -/
theorem file_keeps (hintMax : ℕ) (h : FanoutHint) (hx : q.items[id]? = some x) :
    (q.file hintMax h).items[id]? = some x ∨
      (h.id = id ∧ (q.file hintMax h).items[id]? = some h ∧ hintNewer h.ent x.ent = true) ∨
      (h.id ∉ q.items ∧ id ∈ overflow hintMax q.order) := by
  unfold file
  by_cases hmem : h.id ∈ q.items
  · rw [dif_pos hmem]
    by_cases hnewer : hintNewer h.ent q.items[h.id].ent
    · rw [if_pos hnewer]
      rw [getElem?_insert]
      by_cases hid : h.id = id
      · rw [if_pos hid]
        subst hid
        have hthere : q.items[h.id] = x :=
          Option.some.inj ((Std.ExtTreeMap.getElem?_eq_some_getElem hmem).symm.trans hx)
        exact Or.inr (Or.inl ⟨rfl, rfl, hthere ▸ hnewer⟩)
      · rw [if_neg hid]
        exact Or.inl hx
    · rw [if_neg hnewer]
      exact Or.inl hx
  · rw [dif_neg hmem]
    have hne : h.id ≠ id := by
      rintro rfl
      exact hmem (Std.ExtTreeMap.mem_iff_isSome_getElem?.mpr (by rw [hx]; rfl))
    simp only [getElem?_insert, if_neg hne]
    exact (makeRoom_keeps hintMax hx).imp_right fun hover => Or.inr ⟨hmem, hover⟩

theorem enqueue_subset (hintMax : ℕ) (hx : (q.enqueue hintMax h).items[id]? = some x) :
    (x = h ∧ id = h.id) ∨ q.items[id]? = some x := by
  simp only [enqueue] at hx
  split at hx
  · exact Or.inr (dropAdds_subset hx)
  · exact (file_subset hintMax hx).imp_right dropAdds_subset

/-- A hint that an enqueued one takes from the queue is replaced by it, is an item-add of the
filter it deletes, or is dropped under the cap. -/
theorem enqueue_keeps (hintMax : ℕ) (h : FanoutHint) (hx : q.items[id]? = some x) :
    (q.enqueue hintMax h).items[id]? = some x ∨
      (h.id = id ∧ (q.enqueue hintMax h).items[id]? = some h ∧ hintNewer h.ent x.ent = true) ∨
      (h.ent.isTombstone = true ∧ addOf h x = true) ∨
      (h.id ∉ (q.dropAdds h).items ∧ id ∈ overflow hintMax (q.dropAdds h).order) := by
  simp only [enqueue]
  rcases dropAdds_keeps h hx with hkept | hdrop
  · split
    · exact Or.inl hkept
    · rcases file_keeps hintMax h hkept with hfile | hrepl | hover
      · exact Or.inl hfile
      · exact Or.inr (Or.inl hrepl)
      · exact Or.inr (Or.inr (Or.inr hover))
  · exact Or.inr (Or.inr (Or.inl hdrop))

theorem peek_spec (hpeek : q.peek = some x) : q.items[x.id]? = some x := by
  obtain ⟨id, -, hx⟩ := Option.bind_eq_some_iff.mp hpeek
  rw [(q.filed id x hx).2, hx]

/-- A queue without order has no hints. -/
theorem items_of_order_nil (hnil : q.order = []) (id : Bytes) : q.items[id]? = none := by
  rw [Option.eq_none_iff_forall_ne_some]
  intro x hx
  have hmem := (q.filed id x hx).1
  rw [hnil] at hmem
  cases hmem

end PeerHintQ

end Queue

structure FanoutPool where
  hintsDisabled : Bool
  closed : Bool
  hintMax : ℕ
  hints : Map PeerHintQ

def newFanoutPool (disableHints : Bool) (hintMaxPerPeer : ℤ) : FanoutPool :=
  ⟨disableHints, false, if hintMaxPerPeer ≤ 0 then 4096 else hintMaxPerPeer.toNat, ∅⟩

namespace FanoutPool

variable (p : FanoutPool)

def queue (addr : Bytes) : PeerHintQ := (p.hints[addr]?).getD .empty

def queued (addr id : Bytes) : Option FanoutHint := (p.queue addr).items[id]?

def enqueueHint (h : FanoutHint) : FanoutPool :=
  if p.hintsDisabled || p.closed || h.peer.addr.isEmpty then p
  else
    { p with hints := p.hints.insert h.peer.addr ((p.queue h.peer.addr).enqueue p.hintMax h) }

def peekHint (addr : Bytes) : Option FanoutHint := p.hints[addr]?.bind PeerHintQ.peek

def popHint (addr id : Bytes) : FanoutPool :=
  match p.hints[addr]? with
  | none => p
  | some q =>
    if (q.pop id).order = [] then { p with hints := p.hints.erase addr }
    else { p with hints := p.hints.insert addr (q.pop id) }

variable {p} {addr id : Bytes} {h x : FanoutHint}

theorem queue_insert (q : PeerHintQ) (k : Bytes) :
    ({ p with hints := p.hints.insert addr q } : FanoutPool).queue k =
      if addr = k then q else p.queue k := by
  simp only [queue, getElem?_insert]
  split <;> rfl

theorem queue_erase (k : Bytes) : ({ p with hints := p.hints.erase addr } : FanoutPool).queue k =
      if addr = k then .empty else p.queue k := by
  simp only [queue, getElem?_erase]
  split <;> rfl

/-- A call that is not ignored changes the queue of its peer. -/
theorem queue_enqueueHint (htaken : (p.hintsDisabled || p.closed || h.peer.addr.isEmpty) = false)
    (k : Bytes) : (p.enqueueHint h).queue k =
      if h.peer.addr = k then (p.queue k).enqueue p.hintMax h else p.queue k := by
  rw [enqueueHint, htaken, if_neg Bool.false_ne_true, queue_insert]
  by_cases hk : h.peer.addr = k
  · simp only [if_pos hk]
    rw [hk]
  · simp only [if_neg hk]

theorem queued_enqueueHint_subset (hx : (p.enqueueHint h).queued addr id = some x) :
    (x = h ∧ addr = h.peer.addr ∧ id = h.id) ∨ p.queued addr id = some x := by
  unfold enqueueHint queued at hx
  split at hx
  · exact Or.inr hx
  · rw [queue_insert] at hx
    by_cases haddr : h.peer.addr = addr
    · rw [if_pos haddr] at hx
      rcases PeerHintQ.enqueue_subset _ hx with ⟨rfl, rfl⟩ | hold
      · exact Or.inl ⟨rfl, haddr.symm, rfl⟩
      · exact Or.inr (haddr ▸ hold)
    · rw [if_neg haddr] at hx
      exact Or.inr hx

theorem queued_of_peekHint (hpeek : p.peekHint addr = some h) : p.queued addr h.id = some h := by
  obtain ⟨q, hq, hhead⟩ := Option.bind_eq_some_iff.mp hpeek
  rw [queued, queue, hq]
  exact PeerHintQ.peek_spec hhead

/-- A pop changes the queue of its peer, which goes when it is empty. -/
theorem queue_popHint (k : Bytes) : (p.popHint addr id).queue k =
      if addr = k then if ((p.queue k).pop id).order = [] then .empty else (p.queue k).pop id
      else p.queue k := by
  unfold popHint
  cases hq : p.hints[addr]? with
  | none =>
    by_cases hk : addr = k
    · have hqueue : p.queue k = .empty := by
        rw [queue, ← hk, hq]
        rfl
      have hnil : (PeerHintQ.empty.pop id).order = [] := rfl
      rw [if_pos hk, hqueue, if_pos hnil, ← hqueue]
    · rw [if_neg hk]
  | some q =>
    have hqueue : addr = k → p.queue k = q := by
      rintro rfl
      rw [queue, hq]
      rfl
    simp only
    by_cases hnil : (q.pop id).order = []
    · rw [if_pos hnil]
      rw [queue_erase]
      by_cases hk : addr = k
      · simp only [if_pos hk]
        rw [hqueue hk, if_pos hnil]
      · simp only [if_neg hk]
    · rw [if_neg hnil]
      rw [queue_insert]
      by_cases hk : addr = k
      · simp only [if_pos hk]
        rw [hqueue hk, if_neg hnil]
      · simp only [if_neg hk]

/-- A pop takes what is queued under the identity and nothing else. -/
theorem queued_popHint (a k : Bytes) :
    (p.popHint addr id).queued a k = if addr = a ∧ id = k then none else p.queued a k := by
  rw [queued, queue_popHint]
  by_cases ha : addr = a
  · have hitems : ((p.queue a).pop id).items[k]? = if id = k then none else p.queued a k :=
      getElem?_erase (p.queue a).items id k
    simp only [ha, if_true, true_and]
    rw [← hitems]
    by_cases hnil : ((p.queue a).pop id).order = []
    · rw [if_pos hnil]
      rw [PeerHintQ.items_of_order_nil hnil]
      simp [PeerHintQ.empty]
    · rw [if_neg hnil]
  · simp only [ha, if_false, false_and]
    rfl

end FanoutPool

/-- Where the flush loop is: it has looked at a hint and replays it, or the replay has succeeded
and the hint is about to be popped. -/
inductive Flight where
  | idle
  | replaying (addr : Bytes) (h : FanoutHint)
  | replayed (addr : Bytes) (h : FanoutHint)

def Flight.hint : Flight → Option (Bytes × FanoutHint)
  | .idle => none
  | .replaying addr h => some (addr, h)
  | .replayed addr h => some (addr, h)

structure Sys where
  pool : FanoutPool
  flight : Flight
  sent : List (Bytes × FanoutHint)

inductive Turn where
  | enqueueHint (h : FanoutHint)
  | peekHint (addr : Bytes)
  | replayHint (ok : Bool)
  | popHint
  | close

def step (s : Sys) : Turn → Sys
  | .enqueueHint h => { s with pool := s.pool.enqueueHint h }
  | .peekHint addr =>
    match s.flight, s.pool.peekHint addr with
    | .idle, some h => { s with flight := .replaying addr h }
    | _, _ => s
  | .replayHint ok =>
    match s.flight with
    | .replaying addr h =>
      if ok then { s with flight := .replayed addr h, sent := s.sent ++ [(addr, h)] }
      else { s with flight := .idle }
    | _ => s
  | .popHint =>
    match s.flight with
    | .replayed addr h => { s with pool := s.pool.popHint addr h.id, flight := .idle }
    | _ => s
  | .close => { s with pool := { s.pool with closed := true } }

def start (disableHints : Bool) (hintMaxPerPeer : ℤ) : Sys :=
  ⟨newFanoutPool disableHints hintMaxPerPeer, .idle, []⟩

/-- The ways in which a hint may leave the queue of an address. -/
inductive Excused (s : Sys) (t : Turn) (addr id : Bytes) (x : FanoutHint) : Prop where
  | replayed (h : FanoutHint) (hsent : (addr, h) ∈ s.sent) (hid : h.id = id)
    (hnew : hintNewer x.ent h.ent = false)
  | replaced (h : FanoutHint) (hturn : t = .enqueueHint h) (hid : h.id = id)
    (hqueued : (step s t).pool.queued addr id = some h) (hnew : hintNewer h.ent x.ent = true)
  | deleted (h : FanoutHint) (hturn : t = .enqueueHint h) (haddr : h.peer.addr = addr)
    (htomb : h.ent.isTombstone = true) (hadd : PeerHintQ.addOf h x = true)
  | capped (h : FanoutHint) (hturn : t = .enqueueHint h) (haddr : h.peer.addr = addr)
    (hover : id ∈ overflow s.pool.hintMax ((s.pool.queue addr).dropAdds h).order)

def Undisturbed (s : Sys) : Turn → Prop
  | .enqueueHint h => ∀ p ∈ s.flight.hint, p.1 = h.peer.addr → p.2.id = h.id →
      hintNewer h.ent p.2.ent = false
  | _ => True

instance Undisturbed.decidable (s : Sys) : ∀ t, Decidable (Undisturbed s t)
  | .enqueueHint h => inferInstanceAs (Decidable (∀ p ∈ s.flight.hint, p.1 = h.peer.addr →
      p.2.id = h.id → hintNewer h.ent p.2.ent = false))
  | .peekHint _ | .replayHint _ | .popHint | .close => .isTrue trivial

/-- What is queued under the identity of a hint under replay is not newer than it. -/
structure Settled (s : Sys) : Prop where
  flight : ∀ addr h x, s.flight.hint = some (addr, h) → s.pool.queued addr h.id = some x →
    hintNewer x.ent h.ent = false
  sent : ∀ addr h, s.flight = .replayed addr h → (addr, h) ∈ s.sent

section Runs

variable {s : Sys} {t : Turn}

theorem settled_start (disableHints : Bool) (hintMaxPerPeer : ℤ) :
    Settled (start disableHints hintMaxPerPeer) := by
  constructor
  · intro addr h x hflight
    cases hflight
  · intro addr h hflight
    cases hflight

/-- One turn keeps what the flush loop relies on. -/
theorem settled_step (hs : Settled s) (ht : Undisturbed s t) : Settled (step s t) := by
  cases t with
  | enqueueHint h =>
    refine ⟨fun addr old x hflight hx => ?_, hs.sent⟩
    rcases FanoutPool.queued_enqueueHint_subset hx with ⟨rfl, rfl, hid⟩ | hold
    · exact ht _ hflight rfl hid
    · exact hs.flight addr old x hflight hold
  | peekHint addr =>
    simp only [step]
    split
    next h hidle hpeek =>
      refine ⟨fun a old x hflight hx => ?_, fun a old hflight => ?_⟩
      · cases hflight
        cases (FanoutPool.queued_of_peekHint hpeek).symm.trans hx
        exact hintNewer_self _
      · cases hflight
    · exact hs
  | replayHint ok =>
    simp only [step]
    split
    next addr h hflight =>
      split
      · refine ⟨fun a old x ha hx => ?_, fun a old ha => ?_⟩
        · cases ha
          exact hs.flight _ _ _ (congrArg Flight.hint hflight) hx
        · cases ha
          simp
      · refine ⟨fun a old x ha => ?_, fun a old ha => ?_⟩
        · cases ha
        · cases ha
    · exact hs
  | popHint =>
    simp only [step]
    split
    · refine ⟨fun a old x ha => ?_, fun a old ha => ?_⟩
      · cases ha
      · cases ha
    · exact hs
  | close => exact ⟨hs.flight, hs.sent⟩

/-- A hint that a turn takes from the queue is excused. -/
theorem kept_or_excused (hs : Settled s) (addr id : Bytes) (x : FanoutHint)
    (hx : s.pool.queued addr id = some x) :
    (step s t).pool.queued addr id = some x ∨ Excused s t addr id x := by
  cases t with
  | enqueueHint h =>
    by_cases hskip : (s.pool.hintsDisabled || s.pool.closed || h.peer.addr.isEmpty) = true
    · refine Or.inl ?_
      simp only [step, FanoutPool.enqueueHint, hskip, if_true, hx]
    · have hpool := FanoutPool.queue_enqueueHint (Bool.eq_false_iff.mpr hskip) addr
      by_cases haddr : h.peer.addr = addr
      · rw [if_pos haddr] at hpool
        have hitems : ∀ k, (step s (.enqueueHint h)).pool.queued addr k =
            ((s.pool.queue addr).enqueue s.pool.hintMax h).items[k]? := fun k => by
          rw [FanoutPool.queued, step, hpool]
        rcases PeerHintQ.enqueue_keeps s.pool.hintMax h hx with hk | hr | hd | ho
        · exact Or.inl ((hitems id).trans hk)
        · exact Or.inr (.replaced h rfl hr.1 ((hitems id).trans hr.2.1) hr.2.2)
        · exact Or.inr (.deleted h rfl haddr hd.1 hd.2)
        · exact Or.inr (.capped h rfl haddr ho.2)
      · rw [if_neg haddr] at hpool
        exact Or.inl (by rw [FanoutPool.queued, step, hpool]; exact hx)
  | peekHint a =>
    refine Or.inl ?_
    simp only [step]
    split <;> exact hx
  | replayHint ok =>
    refine Or.inl ?_
    simp only [step]
    split
    · split <;> exact hx
    · exact hx
  | popHint =>
    simp only [step]
    split
    next a h hflight =>
      rw [FanoutPool.queued_popHint]
      by_cases hsame : a = addr ∧ h.id = id
      · rw [if_pos hsame]
        obtain ⟨rfl, rfl⟩ := hsame
        exact Or.inr (.replayed h (hs.sent _ _ hflight) rfl
          (hs.flight _ _ _ (congrArg Flight.hint hflight) hx))
      · rw [if_neg hsame]
        exact Or.inl hx
    · exact Or.inl hx
  | close => exact Or.inl hx

end Runs

/-- In every run in which nothing newer is enqueued under the identity of a hint while it is being
replayed, every turn leaves every queued hint where it is or has an excuse. -/
theorem hints_not_lost (disableHints : Bool) (hintMaxPerPeer : ℤ) (turns : List Turn)
    (hrun : Along step Undisturbed (start disableHints hintMaxPerPeer) turns) :
    Along step (fun s t => ∀ addr id x, s.pool.queued addr id = some x →
        (step s t).pool.queued addr id = some x ∨ Excused s t addr id x)
      (start disableHints hintMaxPerPeer) turns :=
  Along.derive (fun _ _ hs ht => settled_step hs ht) (fun _ _ hs _ => kept_or_excused hs)
    (settled_start disableHints hintMaxPerPeer) hrun

/-- The same hint is enqueued once more while it is being replayed. -/
theorem hints_not_lost_repeated :
    let h : FanoutHint := ⟨⟨[97], [1]⟩, [], [107], ⟨[7], 1, 0, 0⟩, 0⟩
    let turns : List Turn := [.enqueueHint h, .peekHint [1], .enqueueHint h, .replayHint true,
      .popHint]
    Along step (fun s t => ∀ addr id x, s.pool.queued addr id = some x →
        (step s t).pool.queued addr id = some x ∨ Excused s t addr id x) (start false 0) turns := by
  intro h turns
  exact hints_not_lost false 0 turns (by decide +kernel)

/-- A newer hint for the key is enqueued while the older one is being replayed, and the pop that
follows takes the newer one, which was never sent. -/
theorem newer_hint_lost :
    let old : FanoutHint := ⟨⟨[97], [1]⟩, [], [107], ⟨[7], 1, 0, 0⟩, 0⟩
    let new : FanoutHint := ⟨⟨[97], [1]⟩, [], [107], ⟨[8], 2, 0, 0⟩, 0⟩
    let s := [.enqueueHint old, .peekHint [1], .enqueueHint new, .replayHint true].foldl step
      (start false 0)
    s.pool.queued [1] new.id = some new ∧ (step s .popHint).pool.queued [1] new.id = none ∧
      ¬ Excused s .popHint [1] new.id new := by
  intro old new s
  have hsent : s.sent = [([1], old)] := by decide +kernel
  refine ⟨by decide +kernel, by decide +kernel, ?_⟩
  rintro (⟨h, hh, -, hnew⟩ | ⟨h, hturn⟩ | ⟨h, hturn⟩ | ⟨h, hturn⟩)
  · rw [hsent, List.mem_singleton] at hh
    cases hh
    revert hnew
    decide
  · cases hturn
  · cases hturn
  · cases hturn

end Supercache.Hints
