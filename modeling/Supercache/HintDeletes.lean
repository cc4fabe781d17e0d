import Supercache.HintQueues
import Supercache.Handoff
import Supercache.FilterReplay

/-!
Deletes and item-adds of one Bloom filter in a queue of hints. A delete drops all queued item-adds
of its filter, also newer ones. In runs in which this does not happen, and no hint is queued under
the identity of another name, an item-add newer than the deletes stays queued behind them, and the
peer has the item after the flush.
-/
namespace Supercache.Hints

open Wire ByteMap Lru Schedule

/-- No item-add is dropped by an older delete of its filter, and hints for other names are not in
the way. -/
structure Careful (q : PeerHintQ) (h : FanoutHint) : Prop where
  newest : h.ent.isTombstone = true → ∀ (id : Bytes) (x : FanoutHint), q.items[id]? = some x →
    x.isBloomAdd = true → x.ks = h.ks → x.key = h.key → x.ent.version ≤ h.ent.version
  names : ∀ x : FanoutHint, q.items[h.id]? = some x ∨ q.items[h.name]? = some x →
    x.ks = h.ks ∧ x.key = h.key

def Heeds (s : Sys) : Turn → Prop
  | .enqueueHint h => Careful (s.pool.queue h.peer.addr) h
  | _ => True

def Room (s : Sys) : Turn → Prop
  | .enqueueHint h => (s.pool.queue h.peer.addr).order.length < s.pool.hintMax
  | _ => True

structure Paired (q : PeerHintQ) (i : Bytes) (add : FanoutHint) (j : Bytes) (del : FanoutHint) :
    Prop where
  queuedAdd : q.items[i]? = some add
  queuedDel : q.items[j]? = some del
  isAdd : add.isBloomAdd = true
  isDel : del.ent.isTombstone = true
  ks : del.ks = add.ks
  key : del.key = add.key
  ne : j ≠ i

def DeletesFirst (q : PeerHintQ) : Prop :=
  ∀ i add j del, Paired q i add j del → [j, i].Sublist q.order

section Queue

variable {hintMax : ℕ} {q : PeerHintQ} {h : FanoutHint}

theorem Paired.of_subset {q' : PeerHintQ} {i j : Bytes} {add del : FanoutHint}
    (hp : Paired q i add j del) (hadd : q'.items[i]? = some add) (hdel : q'.items[j]? = some del) :
    Paired q' i add j del := ⟨hadd, hdel, hp.isAdd, hp.isDel, hp.ks, hp.key, hp.ne⟩

/-- Dropping item-adds keeps the others in order. -/
theorem DeletesFirst.dropAdds (hq : DeletesFirst q) (h : FanoutHint) :
    DeletesFirst (q.dropAdds h) := by
  intro i add j del hp
  have hold := hq i add j del
    (hp.of_subset (PeerHintQ.dropAdds_subset hp.queuedAdd) (PeerHintQ.dropAdds_subset hp.queuedDel))
  have hadd := hp.queuedAdd
  have hdel := hp.queuedDel
  unfold PeerHintQ.dropAdds at hadd hdel ⊢
  by_cases htomb : h.ent.isTombstone
  · rw [if_pos htomb]
    simp only [htomb, if_true] at hadd hdel
    let items := q.items.filter fun _ old => !PeerHintQ.addOf h old
    have hboth : [j, i].filter (fun id => items.contains id) = [j, i] := by
      refine List.filter_eq_self.mpr fun id hid => ?_
      rw [Std.ExtTreeMap.contains_eq_isSome_getElem?]
      rcases List.mem_cons.mp hid with rfl | hid
      · exact hdel ▸ rfl
      · rw [List.mem_singleton.mp hid]
        exact hadd ▸ rfl
    exact hboth ▸ hold.filter fun id => items.contains id
  · rw [if_neg htomb]
    exact hold

theorem DeletesFirst.pop (hq : DeletesFirst q) (id : Bytes) : DeletesFirst (q.pop id) := by
  intro i add j del hp
  have hadd := hp.queuedAdd
  have hdel := hp.queuedDel
  simp only [PeerHintQ.pop, getElem?_erase] at hadd hdel
  by_cases hi : id = i
  · rw [if_pos hi] at hadd
    cases hadd
  · rw [if_neg hi] at hadd
    by_cases hj : id = j
    · rw [if_pos hj] at hdel
      cases hdel
    · rw [if_neg hj] at hdel
      have hkeep := (hq i add j del (hp.of_subset hadd hdel)).erase id
      rwa [List.erase_of_not_mem (by simp [hi, hj])] at hkeep

/-- Dropping the oldest hints keeps the order of those that stay. -/
theorem sublist_of_suffix {l l' : List Bytes} {i j : Bytes} (hsuffix : l' <:+ l) (hnodup : l.Nodup)
    (hj : j ∈ l') (h : [j, i].Sublist l) : [j, i].Sublist l' := by
  obtain ⟨front, rfl⟩ := hsuffix
  obtain ⟨l₁, l₂, heq, h₁, h₂⟩ := List.sublist_append_iff.mp h
  cases l₁ with
  | nil =>
    rw [List.nil_append] at heq
    exact heq ▸ h₂
  | cons x l₁ =>
    obtain ⟨hx, -⟩ := List.cons.inj heq
    have hfront : j ∈ front := h₁.subset (hx ▸ List.mem_cons_self)
    exact absurd hj ((List.nodup_append'.mp hnodup).2.2 hfront)

/-- A call that is taken with care keeps deletes in front. -/
theorem DeletesFirst.enqueue (hq : DeletesFirst q) (hsound : q.Sound hintMax) (hmax : 1 ≤ hintMax)
    (hcare : Careful q h) : DeletesFirst (q.enqueue hintMax h) := by
  have hdrop := hq.dropAdds h
  have hsound' := hsound.dropAdds h
  simp only [PeerHintQ.enqueue]
  split
  · exact hdrop
  · intro i add j del hp
    have hold : ∀ {id x}, (q.dropAdds h).items[id]? = some x → id = h.id → Alike x h := by
      intro id x hx hid
      subst hid
      obtain ⟨hks, hkey⟩ := hcare.names x (Or.inl (PeerHintQ.dropAdds_subset hx))
      exact alike_of_name_eq hks hkey ((q.dropAdds h).filed h.id x hx).2
    -- the delete was queued before the call, or it leaves no item-adds of its filter
    have hdel : (q.dropAdds h).items[j]? = some del := by
      rcases PeerHintQ.file_subset hintMax hp.queuedDel with ⟨rfl, hj⟩ | hdel
      · rcases PeerHintQ.file_subset hintMax hp.queuedAdd with ⟨-, hi⟩ | hadd
        · exact absurd (hj.trans hi.symm) hp.ne
        · have hnot := PeerHintQ.not_add_of_dropAdds hp.isDel hadd hp.ks.symm hp.key.symm
          exact absurd (hnot.symm.trans hp.isAdd) Bool.false_ne_true
      · exact hdel
    by_cases hthere : h.id ∈ (q.dropAdds h).items
    · rw [PeerHintQ.order_file_of_mem hthere]
      rcases PeerHintQ.file_subset hintMax hp.queuedAdd with ⟨rfl, rfl⟩ | hadd
      · -- the item-add takes the place of one of the same filter
        have hitem := Std.ExtTreeMap.getElem?_eq_some_getElem hthere
        obtain ⟨hks, hkey, hkind, -⟩ := hold hitem rfl
        exact hdrop _ _ j del ⟨hitem, hdel, hkind.trans hp.isAdd, hp.isDel, hp.ks.trans hks.symm,
          hp.key.trans hkey.symm, hp.ne⟩
      · exact hdrop i add j del (hp.of_subset hadd hdel)
    · have hj : j ≠ h.id := by
        rintro rfl
        exact hthere (Std.ExtTreeMap.mem_iff_isSome_getElem?.mpr (by rw [hdel]; rfl))
      have hmemj : j ∈ (makeRoom hintMax (q.dropAdds h).order (q.dropAdds h).items).1 := by
        have hmem := ((hsound'.file hmax h).mem_iff j).mpr ⟨del, hp.queuedDel⟩
        rw [PeerHintQ.order_file_of_not_mem hthere, List.mem_append, List.mem_singleton] at hmem
        exact hmem.resolve_right hj
      rw [PeerHintQ.order_file_of_not_mem hthere]
      rcases PeerHintQ.file_subset hintMax hp.queuedAdd with ⟨rfl, rfl⟩ | hadd
      · exact (List.singleton_sublist.mpr hmemj).append (List.Sublist.refl [add.id])
      · obtain ⟨hsuffix, -, -⟩ := PeerHintQ.makeRoom_spec hmax hsound'.nodup hsound'.mem_iff
        have hin := hdrop i add j del (hp.of_subset hadd hdel)
        exact (sublist_of_suffix hsuffix hsound'.nodup hmemj hin).trans
          (List.sublist_append_left _ _)

end Queue

section Stays

variable {hintMax : ℕ} {q : PeerHintQ} {x h : FanoutHint}

/-- The item-add is queued, or a newer one of the same item. -/
def Stays (x : FanoutHint) (q : PeerHintQ) : Prop :=
  ∃ y, q.items[x.id]? = some y ∧ Alike x y ∧ x.ent.version ≤ y.ent.version

def DeletesFilter (x h : FanoutHint) : Prop :=
  h.ent.isTombstone = true ∧ h.ks = x.ks ∧ h.key = x.key

def Newest (x : FanoutHint) (q : PeerHintQ) : Prop :=
  ∀ (id : Bytes) (del : FanoutHint), q.items[id]? = some del → DeletesFilter x del →
    del.ent.version < x.ent.version

theorem version_le_of_not_hintNewer {a b : Entry} (h : hintNewer a b = false) :
    a.version ≤ b.version := by
  rw [not_hintNewer_iff, rank, rank] at h
  split at h <;> split at h <;> omega

theorem Alike.trans {a b c : FanoutHint} (hab : Alike a b) (hbc : Alike b c) : Alike a c :=
  ⟨hab.1.trans hbc.1, hab.2.1.trans hbc.2.1, hab.2.2.1.trans hbc.2.2.1, fun hadd =>
    (hab.2.2.2 hadd).trans (hbc.2.2.2 (hab.2.2.1.symm.trans hadd))⟩

theorem Alike.symm {a b : FanoutHint} (hab : Alike a b) : Alike b a :=
  ⟨hab.1.symm, hab.2.1.symm, hab.2.2.1.symm, fun hadd =>
    (hab.2.2.2 (hab.2.2.1.trans hadd)).symm⟩

theorem Alike.id_eq {a b : FanoutHint} (hab : Alike a b) : a.id = b.id := by
  have hname : a.name = b.name := by rw [FanoutHint.name, FanoutHint.name, hab.1, hab.2.1]
  cases hadd : a.isBloomAdd with
  | true =>
    rw [FanoutHint.id_of_add hadd, FanoutHint.id_of_add (hab.2.2.1.symm.trans hadd), hname,
      hab.2.2.2 hadd]
  | false =>
    rw [FanoutHint.id_of_not_add hadd, FanoutHint.id_of_not_add (hab.2.2.1.symm.trans hadd), hname]

theorem overflow_of_room (hroom : q.order.length < hintMax) :
    overflow hintMax (q.dropAdds h).order = [] := by
  have hle : (q.dropAdds h).order.length ≤ q.order.length := by
    unfold PeerHintQ.dropAdds
    split
    · exact List.length_filter_le _ _
    · exact Nat.le_refl _
  have hzero : (q.dropAdds h).order.length + 1 - hintMax = 0 := by omega
  rw [overflow, hzero, List.take_zero]

theorem Newest.enqueue (hq : Newest x q) (hintMax : ℕ)
    (hh : DeletesFilter x h → h.ent.version < x.ent.version) : Newest x (q.enqueue hintMax h) := by
  intro id del hdel hfilter
  rcases PeerHintQ.enqueue_subset hintMax hdel with ⟨rfl, -⟩ | hold
  · exact hh hfilter
  · exact hq id del hold hfilter

/-- An item-add that is newer than the queued deletes of its filter is queued. -/
theorem stays_of_enqueue (hq : Newest x q) (hintMax : ℕ) (hcare : Careful q x) :
    Stays x (q.enqueue hintMax x) := by
  have hlive : ¬ (q.dropAdds x).deleted x = true := by
    intro hdeleted
    obtain ⟨-, del, hitem, htomb, hle⟩ := PeerHintQ.deleted_iff.mp hdeleted
    have hqueued := PeerHintQ.dropAdds_subset hitem
    have hlt := hq x.name del hqueued ⟨htomb, hcare.names del (Or.inr hqueued)⟩
    omega
  have hself : Alike x x := ⟨rfl, rfl, rfl, fun _ => rfl⟩
  simp only [PeerHintQ.enqueue, hlive]
  rcases (q.dropAdds x).file_self hintMax x with ⟨-, hfiled⟩ | ⟨old, hold, hcase⟩
  · exact ⟨x, hfiled, hself, Nat.le_refl _⟩
  · obtain ⟨hks, hkey⟩ := hcare.names old (Or.inl (PeerHintQ.dropAdds_subset hold))
    have halike := alike_of_name_eq hks hkey ((q.dropAdds x).filed x.id old hold).2
    rcases hcase with ⟨-, hfiled⟩ | ⟨hnot, hfiled⟩
    · exact ⟨x, hfiled, hself, Nat.le_refl _⟩
    · exact ⟨old, hfiled, halike.symm, version_le_of_not_hintNewer hnot⟩

/-- Further calls below the cap leave it there. -/
theorem Stays.enqueue (hx : Stays x q) (hcare : Careful q h)
    (hroom : q.order.length < hintMax) (hh : DeletesFilter x h → h.ent.version < x.ent.version) :
    Stays x (q.enqueue hintMax h) := by
  obtain ⟨y, hy, halike, hle⟩ := hx
  rcases PeerHintQ.enqueue_keeps hintMax h hy with hkept | ⟨hid, hnow, hnewer⟩ | ⟨htomb, haddOf⟩ |
    ⟨-, hover⟩
  · exact ⟨y, hkept, halike, hle⟩
  · -- replaced by a newer item-add of the same item
    obtain ⟨hks, hkey⟩ := hcare.names y (Or.inl (hid ▸ hy))
    have hyh := alike_of_name_eq hks hkey (halike.id_eq.symm.trans hid.symm)
    have hversion := version_le_of_not_hintNewer (not_hintNewer_of_hintNewer hnewer)
    exact ⟨h, hnow, halike.trans hyh, hle.trans hversion⟩
  · -- a delete that is taken with care is not older than what it drops
    rw [PeerHintQ.addOf, Bool.and_eq_true, Bool.and_eq_true, beq_iff_eq, beq_iff_eq] at haddOf
    obtain ⟨⟨hks, hkey⟩, hisAdd⟩ := haddOf
    have hge := hcare.newest htomb x.id y hy hisAdd hks hkey
    have hlt := hh ⟨htomb, hks.symm.trans halike.1.symm, hkey.symm.trans halike.2.1.symm⟩
    omega
  · rw [overflow_of_room hroom] at hover
    cases hover

end Stays

section Runs

variable {s : Sys} {t : Turn}

structure Orderly (s : Sys) : Prop where
  hintMax_pos : 1 ≤ s.pool.hintMax
  sound : ∀ addr, (s.pool.queue addr).Sound s.pool.hintMax
  deletesFirst : ∀ addr, DeletesFirst (s.pool.queue addr)

theorem items_empty (id : Bytes) : PeerHintQ.empty.items[id]? = none := by simp [PeerHintQ.empty]

theorem deletesFirst_empty : DeletesFirst .empty := by
  intro i add j del hp
  cases (items_empty i).symm.trans hp.queuedAdd

theorem queue_start (disableHints : Bool) (hintMaxPerPeer : ℤ) (addr : Bytes) :
    (start disableHints hintMaxPerPeer).pool.queue addr = .empty := by
  simp [start, newFanoutPool, FanoutPool.queue]

theorem orderly_start (disableHints : Bool) (hintMaxPerPeer : ℤ) :
    Orderly (start disableHints hintMaxPerPeer) := by
  refine ⟨?_, fun addr => ?_, fun addr => ?_⟩
  · simp only [start, newFanoutPool]
    split <;> omega
  · rw [queue_start]
    exact .empty _
  · rw [queue_start]
    exact deletesFirst_empty

/-- A call changes the queue of its peer, if the pool takes it. -/
theorem queue_enqueueHint_cases (s : Sys) (h : FanoutHint) (addr : Bytes) :
    (step s (.enqueueHint h)).pool.queue addr = s.pool.queue addr ∨ h.peer.addr = addr ∧
      (step s (.enqueueHint h)).pool.queue addr = (s.pool.queue addr).enqueue s.pool.hintMax h := by
  by_cases hskip : (s.pool.hintsDisabled || s.pool.closed || h.peer.addr.isEmpty) = true
  · refine Or.inl ?_
    simp only [step, FanoutPool.enqueueHint, hskip, if_true]
  · have hqueue := FanoutPool.queue_enqueueHint (Bool.eq_false_iff.mpr hskip) addr
    by_cases haddr : h.peer.addr = addr
    · rw [if_pos haddr] at hqueue
      exact Or.inr ⟨haddr, hqueue⟩
    · rw [if_neg haddr] at hqueue
      exact Or.inl hqueue

/-- Every queue of a step is one from before, an emptied one, or the result of a call or a pop. -/
theorem queue_step (s : Sys) (t : Turn) (addr : Bytes) :
    (step s t).pool.queue addr = s.pool.queue addr ∨ (step s t).pool.queue addr = .empty ∨
      (∃ id, (step s t).pool.queue addr = (s.pool.queue addr).pop id) ∨
      ∃ h, t = .enqueueHint h ∧ h.peer.addr = addr ∧
        (step s t).pool.queue addr = (s.pool.queue addr).enqueue s.pool.hintMax h := by
  cases t with
  | enqueueHint h =>
    rcases queue_enqueueHint_cases s h addr with hsame | ⟨haddr, hqueue⟩
    · exact Or.inl hsame
    · exact Or.inr (Or.inr (Or.inr ⟨h, rfl, haddr, hqueue⟩))
  | peekHint a =>
    refine Or.inl ?_
    simp only [step]
    split <;> rfl
  | replayHint ok =>
    refine Or.inl ?_
    simp only [step]
    split
    · split <;> rfl
    · rfl
  | popHint =>
    simp only [step]
    split
    next a h _ =>
      rw [FanoutPool.queue_popHint]
      split
      · split
        · exact Or.inr (Or.inl rfl)
        · exact Or.inr (Or.inr (Or.inl ⟨h.id, rfl⟩))
      · exact Or.inl rfl
    · exact Or.inl rfl
  | close => exact Or.inl rfl

theorem hintMax_step (s : Sys) (t : Turn) : (step s t).pool.hintMax = s.pool.hintMax := by
  cases t with
  | enqueueHint h =>
    simp only [step, FanoutPool.enqueueHint]
    split <;> rfl
  | peekHint a =>
    simp only [step]
    split <;> rfl
  | replayHint ok =>
    simp only [step]
    split
    · split <;> rfl
    · rfl
  | popHint =>
    simp only [step]
    split
    · simp only [FanoutPool.popHint]
      split
      · rfl
      · split <;> rfl
    · rfl
  | close => rfl

/-- One turn that is taken with care. -/
theorem Orderly.step (hs : Orderly s) (ht : Heeds s t) : Orderly (step s t) := by
  have hboth : ∀ addr, ((Hints.step s t).pool.queue addr).Sound s.pool.hintMax ∧
      DeletesFirst ((Hints.step s t).pool.queue addr) := by
    intro addr
    rcases queue_step s t addr with h | h | ⟨id, h⟩ | ⟨x, rfl, rfl, h⟩
    · rw [h]
      exact ⟨hs.sound addr, hs.deletesFirst addr⟩
    · rw [h]
      exact ⟨.empty _, deletesFirst_empty⟩
    · rw [h]
      exact ⟨(hs.sound addr).pop id, (hs.deletesFirst addr).pop id⟩
    · rw [h]
      exact ⟨(hs.sound _).enqueue hs.hintMax_pos x,
        (hs.deletesFirst _).enqueue (hs.sound _) hs.hintMax_pos ht⟩
  refine ⟨?_, fun addr => ?_, fun addr => (hboth addr).2⟩
  · rw [hintMax_step]
    exact hs.hintMax_pos
  · rw [hintMax_step]
    exact (hboth addr).1

end Runs

section Flush

open Handoff

def PeerHintQ.hints (q : PeerHintQ) : List FanoutHint := q.order.filterMap fun id => q.items[id]?

variable {s : Sys} {addr : Bytes}

theorem peekHint_eq (p : FanoutPool) (addr : Bytes) : p.peekHint addr = (p.queue addr).peek := by
  rw [FanoutPool.peekHint, FanoutPool.queue]
  cases p.hints[addr]? with
  | none => rfl
  | some q => rfl

variable (hidle : s.flight = .idle) (hsound : (s.pool.queue addr).Sound s.pool.hintMax)
include hidle hsound

/-- A round of the flush loop sends the oldest hint and takes it off the queue. -/
theorem flush_round
    {id : Bytes} {rest : List Bytes} (horder : (s.pool.queue addr).order = id :: rest) :
    ∃ h, (s.pool.queue addr).items[id]? = some h ∧
      let s' := [Turn.peekHint addr, .replayHint true, .popHint].foldl step s
      s'.flight = .idle ∧ s'.sent = s.sent ++ [(addr, h)] ∧ s'.pool.hintMax = s.pool.hintMax ∧
        (s'.pool.queue addr).order = rest ∧ (s'.pool.queue addr).Sound s.pool.hintMax ∧
        ∀ k ∈ rest, (s'.pool.queue addr).items[k]? = (s.pool.queue addr).items[k]? := by
  obtain ⟨h, hitem⟩ := (hsound.mem_iff id).mp (horder ▸ List.mem_cons_self)
  have hnodup := horder ▸ hsound.nodup
  have hid := hsound.own id h hitem
  have hpeek : s.pool.peekHint addr = some h := by
    rw [peekHint_eq, PeerHintQ.peek, horder, List.head?_cons, Option.bind_some, hitem]
  refine ⟨h, hitem, ?_⟩
  have hround : [Turn.peekHint addr, .replayHint true, .popHint].foldl step s =
      ⟨s.pool.popHint addr h.id, .idle, s.sent ++ [(addr, h)]⟩ := by
    simp [step, hidle, hpeek]
  have herase : ((s.pool.queue addr).pop id).order = rest := by
    simp only [PeerHintQ.pop, horder, List.erase_cons_head]
  have hkeep : ∀ k ∈ rest, ((s.pool.queue addr).pop id).items[k]? =
      (s.pool.queue addr).items[k]? := by
    intro k hk
    have hne : id ≠ k := by
      rintro rfl
      exact (List.nodup_cons.mp hnodup).1 hk
    simp only [PeerHintQ.pop, getElem?_erase, if_neg hne]
  rw [hround]
  refine ⟨rfl, rfl, ?_, ?_⟩
  · simp only [FanoutPool.popHint]
    split
    · rfl
    · split <;> rfl
  · rw [FanoutPool.queue_popHint, if_pos rfl, hid, herase]
    by_cases hnil : rest = []
    · rw [if_pos hnil]
      subst hnil
      exact ⟨rfl, .empty _, fun k hk => absurd hk List.not_mem_nil⟩
    · rw [if_neg hnil]
      exact ⟨herase, hsound.pop id, hkeep⟩

/-- The flush loop sends what is queued, oldest first. -/
theorem flush_sends {rounds : ℕ} (hrounds : (s.pool.queue addr).order.length ≤ rounds) :
    ((flushTurns addr rounds).foldl step s).sent =
      s.sent ++ (s.pool.queue addr).hints.map fun h => (addr, h) := by
  -- the order is spent round by round
  generalize horder : (s.pool.queue addr).order = order at hrounds
  induction order generalizing s rounds with
  | nil =>
    have hpeek : s.pool.peekHint addr = none := by
      rw [peekHint_eq, PeerHintQ.peek, horder]
      rfl
    rw [flush_nothing hidle hpeek, PeerHintQ.hints, horder]
    simp
  | cons id rest ih =>
    cases rounds with
    | zero => exact absurd hrounds (by simp)
    | succ rounds =>
      obtain ⟨h, hitem, hidle', hsent, hmax, horder', hsound', hkeep⟩ :=
        flush_round hidle hsound horder
      rw [flushTurns, List.replicate_succ, List.flatten_cons, List.foldl_append]
      have hrest := ih hidle' (hmax ▸ hsound') horder' (Nat.le_of_succ_le_succ hrounds)
      rw [flushTurns] at hrest
      rw [hrest, hsent, PeerHintQ.hints, PeerHintQ.hints, horder, horder',
        List.filterMap_cons_some hitem, List.filterMap_congr hkeep, List.map_cons,
        List.append_assoc, List.singleton_append]

def flushed (s : Sys) (addr : Bytes) (rounds : ℕ) : List FanoutHint :=
  (((flushTurns addr rounds).foldl step s).sent.drop s.sent.length).map Prod.snd

theorem flushed_eq {rounds : ℕ} (hrounds : (s.pool.queue addr).order.length ≤ rounds) :
    flushed s addr rounds = (s.pool.queue addr).hints := by
  rw [flushed, flush_sends hidle hsound hrounds, List.drop_left, List.map_map]
  exact List.map_id _

end Flush

section Order

variable {hintMax : ℕ} {q : PeerHintQ} {i : Bytes} {y : FanoutHint}

theorem PeerHintQ.mem_hints {h : FanoutHint} :
    h ∈ q.hints ↔ ∃ id ∈ q.order, q.items[id]? = some h := List.mem_filterMap

/-- A queued item-add and what is queued around it: no delete of its filter comes after. -/
theorem PeerHintQ.hints_split (hsound : q.Sound hintMax) (hfirst : DeletesFirst q)
    (hy : q.items[i]? = some y) (hadd : y.isBloomAdd = true) :
    ∃ pre post, q.hints = pre ++ y :: post ∧ ∀ h ∈ post, ¬ DeletesFilter y h := by
  obtain ⟨front, rest, horder⟩ := List.append_of_mem ((hsound.mem_iff i).mpr ⟨y, hy⟩)
  refine ⟨front.filterMap fun id => q.items[id]?, rest.filterMap fun id => q.items[id]?, ?_, ?_⟩
  · rw [PeerHintQ.hints, horder, List.filterMap_append, List.filterMap_cons_some hy]
  · rintro del hdel ⟨htomb, hks, hkey⟩
    obtain ⟨j, hj, hitem⟩ := List.mem_filterMap.mp hdel
    have hnodup := horder ▸ hsound.nodup
    have hout : i ∉ rest := (List.nodup_cons.mp (List.nodup_append'.mp hnodup).2.1).1
    have hne : j ≠ i := by
      rintro rfl
      exact hout hj
    have hsub := hfirst i y j del ⟨hy, hitem, hadd, htomb, hks, hkey, hne⟩
    have hsuffix : i :: rest <:+ q.order := ⟨front, horder.symm⟩
    have hbad := sublist_of_suffix hsuffix hsound.nodup (List.mem_cons_of_mem i hj) hsub
    rcases List.sublist_cons_iff.mp hbad with hrest | ⟨l, hl, -⟩
    · exact hout (hrest.subset (List.mem_cons_of_mem j List.mem_cons_self))
    · exact hne (List.cons.inj hl).1

end Order

/-- An item-add that the pool takes in the state, newer than the deletes of its filter that are
queued or that come in the further calls, all of them below the cap. -/
structure Readded (s : Sys) (x : FanoutHint) (post : List FanoutHint) : Prop where
  taken : (s.pool.hintsDisabled || s.pool.closed || x.peer.addr.isEmpty) = false
  isAdd : x.isBloomAdd = true
  room : Along step Room s (.enqueueHint x :: post.map .enqueueHint)
  newest : Newest x (s.pool.queue x.peer.addr)
  older : ∀ h ∈ x :: post, h.peer.addr = x.peer.addr → DeletesFilter x h →
    h.ent.version < x.ent.version

section Readded

variable {s : Sys} {x : FanoutHint} {post : List FanoutHint}

/-- Further calls leave the item-add queued and newer than the queued deletes of its filter. -/
theorem stays_foldl (hheeds : Along step Heeds s (post.map .enqueueHint))
    (hroom : Along step Room s (post.map .enqueueHint))
    (hdels : ∀ h ∈ post, h.peer.addr = x.peer.addr → DeletesFilter x h →
      h.ent.version < x.ent.version)
    (hstays : Stays x (s.pool.queue x.peer.addr)) (hnewest : Newest x (s.pool.queue x.peer.addr)) :
    let s' := (post.map Turn.enqueueHint).foldl step s
    Stays x (s'.pool.queue x.peer.addr) ∧ Newest x (s'.pool.queue x.peer.addr) := by
  induction post generalizing s with
  | nil => exact ⟨hstays, hnewest⟩
  | cons h post ih =>
    obtain ⟨hh, hrest⟩ := List.forall_mem_cons.mp hdels
    obtain ⟨hcare, hheeds⟩ := hheeds
    obtain ⟨hlt, hroom⟩ := hroom
    have hnext : Stays x ((step s (.enqueueHint h)).pool.queue x.peer.addr) ∧
        Newest x ((step s (.enqueueHint h)).pool.queue x.peer.addr) := by
      rcases queue_enqueueHint_cases s h x.peer.addr with hsame | ⟨haddr, hqueue⟩
      · rw [hsame]
        exact ⟨hstays, hnewest⟩
      · rw [hqueue]
        simp only [Heeds, Room, haddr] at hcare hlt
        exact ⟨hstays.enqueue hcare hlt (hh haddr), hnewest.enqueue _ (hh haddr)⟩
    exact ih hheeds hroom hrest hnext.1 hnext.2

/-- So does the call that queues it. -/
theorem Readded.stays (h : Readded s x post)
    (hheeds : Along step Heeds s (.enqueueHint x :: post.map .enqueueHint)) :
    let s' := (Turn.enqueueHint x :: post.map Turn.enqueueHint).foldl step s
    Stays x (s'.pool.queue x.peer.addr) ∧ Newest x (s'.pool.queue x.peer.addr) := by
  obtain ⟨hself, hrest⟩ := List.forall_mem_cons.mp h.older
  have hqueue : (step s (.enqueueHint x)).pool.queue x.peer.addr =
      (s.pool.queue x.peer.addr).enqueue s.pool.hintMax x := by
    have hcall := FanoutPool.queue_enqueueHint h.taken x.peer.addr
    rwa [if_pos rfl] at hcall
  refine stays_foldl hheeds.2 h.room.2 hrest ?_ ?_
  · rw [hqueue]
    exact stays_of_enqueue h.newest _ hheeds.1
  · rw [hqueue]
    exact h.newest.enqueue _ (hself rfl)

end Readded

open FilterReplay in
/-- In every run in which the calls are taken with care, an item-add that is newer than the deletes
of its filter is queued in the end, or a newer one of the same item. A flush sends it after the
deletes of its filter, and when all that is sent has arrived the peer's filter has the item. -/
theorem readded_items_replayed (disableHints : Bool) (hintMaxPerPeer : ℤ) (pre : List Turn)
    (x : FanoutHint) (post : List FanoutHint)
    (hheeds : Along step Heeds (start disableHints hintMaxPerPeer)
      (pre ++ .enqueueHint x :: post.map .enqueueHint))
    (hx : Readded (pre.foldl step (start disableHints hintMaxPerPeer)) x post) :
    let s := (pre ++ Turn.enqueueHint x :: post.map Turn.enqueueHint).foldl step
      (start disableHints hintMaxPerPeer)
    ∃ y, s.pool.queued x.peer.addr x.id = some y ∧ Alike x y ∧ x.ent.version ≤ y.ent.version ∧
      ∀ rounds, s.flight = .idle → (s.pool.queue x.peer.addr).order.length ≤ rounds →
        let sent := flushed s x.peer.addr rounds
        y ∈ sent ∧ (∀ del ∈ sent, DeletesFilter x del → [del, y].Sublist sent) ∧
        ∀ (p : Keyspace) (m : Mem) (t0 T : ℤ) (arrivals : List Arrival), p.ks = x.ks →
          arrivals.map Arrival.hint = sent → (∀ a ∈ arrivals, t0 ≤ a.now ∧ a.now < T) →
          (∀ a ∈ arrivals, For p x.key a → Suits p T a) →
          Admits p t0 T x.ent.version (m.lookup x.key) → ∀ now < T,
            ((arrivals.foldl (deliver p) m).perform now x.key
              (Store.bloomTest x.ent.value p.m p.k)).2 = true := by
  intro s
  obtain ⟨-, hlater⟩ := Along.append_iff.mp hheeds
  have hs : s = (Turn.enqueueHint x :: post.map Turn.enqueueHint).foldl step
      (pre.foldl step (start disableHints hintMaxPerPeer)) := List.foldl_append
  have horderly : Orderly s :=
    hheeds.invariant (fun _ _ hs ht => hs.step ht) (orderly_start disableHints hintMaxPerPeer)
  obtain ⟨⟨y, hy, halike, hle⟩, hnewest⟩ := hs ▸ hx.stays hlater
  refine ⟨y, hy, halike, hle, ?_⟩
  intro rounds hidle hrounds sent
  have hadd : y.isBloomAdd = true := halike.2.2.1.symm.trans hx.isAdd
  have hlive : y.ent.isTombstone = false := by
    refine Bool.eq_false_iff.mpr fun htomb => ?_
    have hlt := hnewest x.id y hy ⟨htomb, halike.1.symm, halike.2.1.symm⟩
    omega
  obtain ⟨front, rest, hsplit, hafter⟩ := PeerHintQ.hints_split (horderly.sound x.peer.addr)
    (horderly.deletesFirst x.peer.addr) hy hadd
  have hsent : sent = front ++ y :: rest :=
    (flushed_eq hidle (horderly.sound x.peer.addr) hrounds).trans hsplit
  have hrest : ∀ del ∈ rest, ¬ DeletesFilter x del := by
    rintro del hdel ⟨htomb, hks, hkey⟩
    exact hafter del hdel ⟨htomb, hks.trans halike.1, hkey.trans halike.2.1⟩
  have hfront : ∀ del ∈ front, DeletesFilter x del → del.ent.version < y.ent.version := by
    intro del hdel hfilter
    have hmem : del ∈ (s.pool.queue x.peer.addr).hints := hsplit ▸ List.mem_append_left _ hdel
    obtain ⟨id, -, hitem⟩ := PeerHintQ.mem_hints.mp hmem
    exact (hnewest id del hitem hfilter).trans_le hle
  rw [hsent]
  refine ⟨List.mem_append_right _ List.mem_cons_self, ?_, ?_⟩
  · intro del hdel hfilter
    rcases List.mem_append.mp hdel with hin | hin
    · exact (List.singleton_sublist.mpr hin).append
        (List.singleton_sublist.mpr List.mem_cons_self)
    · rcases List.mem_cons.mp hin with rfl | hin
      · exact absurd (hlive.symm.trans hfilter.1) Bool.false_ne_true
      · exact absurd hfilter (hrest del hin)
  · intro p m t0 T arrivals hks hmap htimes hsuits hadmits now hnow
    obtain ⟨before, later, rfl, hbefore, hlater⟩ := List.map_eq_append_iff.mp hmap
    obtain ⟨add, after, rfl, rfl, hlast⟩ := List.map_eq_cons_iff.mp hlater
    have hreplay : Replay p t0 T x.key before add after := by
      refine ⟨htimes, hsuits, hadd, hlive, ⟨halike.1.symm.trans hks.symm, halike.2.1.symm⟩, ?_, ?_⟩
      · intro a ha hfor htomb
        have hmem : a.hint ∈ front := hbefore ▸ List.mem_map_of_mem ha
        exact hfront a.hint hmem ⟨htomb, hfor.1.trans hks, hfor.2⟩
      · intro a ha hfor
        have hmem : a.hint ∈ rest := hlast ▸ List.mem_map_of_mem ha
        exact Bool.eq_false_iff.mpr fun htomb =>
          hrest a.hint hmem ⟨htomb, hfor.1.trans hks, hfor.2⟩
    rw [halike.2.2.2 hx.isAdd]
    exact hreplay.test (hadmits.mono hle) hnow

open FilterReplay in
/-- A filter is deleted and an item is added again while the peer is down. -/
theorem readded_items_replayed_down :
    let peer : Peer := ⟨[98], [1]⟩
    let del : FanoutHint := ⟨peer, [107], [97], ⟨[], 2, 0, flagTombstone⟩, 1⟩
    let add : FanoutHint := ⟨peer, [107], [97], ⟨[120], 3, 0, flagBloomAdd⟩, 1⟩
    let p : Keyspace := ⟨⟨64, 2, by decide, by decide⟩, [107], 0, fun _ _ _ => .skip false⟩
    (((([⟨del, 1⟩, ⟨add, 2⟩] : List Arrival).foldl (deliver p) (Memory.newMemory 0 0)).perform 3
      [97] (Store.bloomTest [120] 64 2)).2 = true) := by
  intro peer del add p
  have honly : ∀ (id : Bytes) (h : FanoutHint), ((step (start false 8)
      (.enqueueHint del)).pool.queue [1]).items[id]? = some h → h = del := by
    intro id h hid
    rcases queue_enqueueHint_cases (start false 8) del [1] with hsame | ⟨-, hqueue⟩
    · rw [hsame, queue_start, items_empty] at hid
      cases hid
    · rw [hqueue, queue_start] at hid
      rcases PeerHintQ.enqueue_subset _ hid with ⟨rfl, -⟩ | hold
      · rfl
      · cases (items_empty id).symm.trans hold
  have hdel : Careful ((start false 8).pool.queue [1]) del := by
    rw [queue_start]
    refine ⟨fun _ id x hx => ?_, fun x hx => ?_⟩
    · cases (items_empty id).symm.trans hx
    · rcases hx with hx | hx <;> cases (items_empty _).symm.trans hx
  have hadd : Careful ((step (start false 8) (.enqueueHint del)).pool.queue [1]) add := by
    refine ⟨fun htomb => absurd htomb (by decide), fun x hx => ?_⟩
    obtain rfl : x = del := hx.elim (honly _ x) (honly _ x)
    exact ⟨rfl, rfl⟩
  have hx : Readded (step (start false 8) (.enqueueHint del)) add [] := by
    refine ⟨rfl, by decide, ⟨?_, trivial⟩, fun id h hid _ => ?_, fun h hmem _ hfilter => ?_⟩
    · show _ < _
      decide +kernel
    · rw [honly id h hid]
      decide
    · obtain rfl := List.mem_singleton.mp hmem
      exact absurd hfilter.1 (by decide)
  obtain ⟨y, -, -, -, hflush⟩ :=
    readded_items_replayed false 8 [.enqueueHint del] add [] ⟨hdel, hadd, trivial⟩ hx
  obtain ⟨-, -, hpeer⟩ := hflush 2 rfl (by decide +kernel)
  refine hpeer p (Memory.newMemory 0 0) 0 9 [⟨del, 1⟩, ⟨add, 2⟩] rfl (by decide +kernel)
    (by decide) ?_ admits_none 3 (by decide)
  intro a ha _
  rcases List.mem_pair.mp ha with rfl | rfl
  · exact Or.inl (by decide)
  · exact Or.inr ⟨Or.inl (by decide), Or.inl rfl⟩

/-- A delete that is older than a queued item-add of its filter drops it, and the peer is left with
the delete. -/
theorem older_delete_drops_add :
    let peer : Peer := ⟨[98], [1]⟩
    let add : FanoutHint := ⟨peer, [107], [97], ⟨[120], 5, 0, flagBloomAdd⟩, 1⟩
    let del : FanoutHint := ⟨peer, [107], [97], ⟨[], 3, 0, flagTombstone⟩, 1⟩
    let s := [Turn.enqueueHint add, .enqueueHint del].foldl step (start false 8)
    del.ent.version < add.ent.version ∧ s.pool.queued [1] add.id = none ∧
      flushed s [1] 2 = [del] := by
  decide +kernel

end Supercache.Hints
