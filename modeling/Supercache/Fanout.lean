import Supercache.HintQueues

/-!
The fan-out of mutations to the peers. A mutation goes into a bounded queue of jobs, from which a
worker sends it to all its peers at once, or it is sent right away by a caller that waits. It is
hinted for a peer that does not accept it, and for all its peers if the queue is full. All steps
interleave.
-/
namespace Supercache.Fanout

open Wire Schedule Hints

structure FanoutJob where
  peers : List Peer
  ks : Bytes
  key : Bytes
  ent : Entry
  ringGen : ℕ

def FanoutJob.hints (job : FanoutJob) : List FanoutHint :=
  job.peers.map fun peer => ⟨peer, job.ks, job.key, job.ent, job.ringGen⟩

def FanoutJob.applies (job : FanoutJob) : List FanoutHint :=
  job.hints.filter fun h => h.peer.addr ≠ []

structure FanoutConfig where
  workers : ℤ
  queueSize : ℤ
  disableHints : Bool
  hintMaxPerPeer : ℤ

/-- The pool with all that is under way. Each worker has the applies it waits for, and after the
workers each caller of `Apply`. What was not accepted, or found the queue full, is to be hinted. -/
structure Pool where
  workers : ℕ
  queueSize : ℕ
  jobs : List FanoutJob
  waiting : List (List FanoutHint)
  failed : List FanoutHint
  accepted : List FanoutHint
  hints : Sys

def newFanoutPool (cfg : FanoutConfig) : Pool :=
  let workers := if cfg.workers ≤ 0 then 32 else cfg.workers.toNat
  let queueSize := if cfg.queueSize ≤ 0 then 10000 else cfg.queueSize.toNat
  ⟨workers, queueSize, [], List.replicate workers [], [], [],
    start cfg.disableHints cfg.hintMaxPerPeer⟩

inductive Turn where
  | submit (job : FanoutJob)
  | apply (job : FanoutJob)
  | take (worker : ℕ)
  | reply (waiter : ℕ) (h : FanoutHint) (ok : Bool)
  | hints (t : Hints.Turn)

/-- Each locked section, each receive of a job and each answer of a peer is a step of its own. -/
def step (s : Pool) : Turn → Pool
  | .submit job =>
    if s.hints.pool.closed then s
    else if s.jobs.length < s.queueSize then { s with jobs := s.jobs ++ [job] }
    else { s with failed := job.hints ++ s.failed }
  | .apply job =>
    if s.hints.pool.closed then s else { s with waiting := s.waiting ++ [job.applies] }
  | .take worker =>
    match s.jobs, s.waiting[worker]? with
    | job :: jobs, some [] =>
      if worker < s.workers then
        { s with jobs := jobs, waiting := s.waiting.set worker job.applies }
      else s
    | _, _ => s
  | .reply waiter h ok =>
    match s.waiting[waiter]? with
    | none => s
    | some calls =>
      if h ∈ calls then
        let waiting := s.waiting.set waiter (calls.erase h)
        if ok then { s with waiting := waiting, accepted := h :: s.accepted }
        else { s with waiting := waiting, failed := h :: s.failed }
      else s
  | .hints (.enqueueHint h) =>
    if h ∈ s.failed then
      { s with failed := s.failed.erase h, hints := Hints.step s.hints (.enqueueHint h) }
    else s
  | .hints t => { s with hints := Hints.step s.hints t }

def Turn.issued : Turn → List FanoutHint
  | submit job => job.hints
  | apply job => job.hints
  | _ => []

/-- The queue of its peer takes the hint in: nothing under its identity is being replayed that is
older, no item-add of a filter it deletes is queued, no queued delete turns it away, and there is
room. -/
def TakenIn (s : Sys) (h : FanoutHint) : Prop :=
  let q := s.pool.queue h.peer.addr
  Undisturbed s (.enqueueHint h) ∧
    (∀ id ∈ q.order, ∀ old ∈ q.items[id]?, PeerHintQ.addOf h old = false) ∧
    (q.dropAdds h).deleted h = false ∧ overflow s.pool.hintMax (q.dropAdds h).order = []

def Calm (s : Pool) : Turn → Prop
  | .hints (.enqueueHint h) => TakenIn s.hints h
  | .hints .close => False
  | _ => True

instance Calm.decidable (s : Pool) : ∀ t, Decidable (Calm s t)
  | .hints (.enqueueHint _) => inferInstanceAs (Decidable (_ ∧ _))
  | .hints .close => .isFalse id
  | .submit _ | .apply _ | .take _ | .reply _ _ _ => .isTrue trivial
  | .hints (.peekHint _) | .hints (.replayHint _) | .hints .popHint => .isTrue trivial

def Pool.underWay (s : Pool) : List FanoutHint :=
  s.jobs.flatMap FanoutJob.applies ++ (s.waiting.flatten ++ s.failed)

/-- What is queued for the peer under the identity of the mutation is as new, or the peer has
accepted such a hint. -/
def Kept (s : Sys) (x : FanoutHint) : Prop :=
  ∃ y, (s.pool.queued x.peer.addr x.id = some y ∨ (x.peer.addr, y) ∈ s.sent ∧ y.id = x.id) ∧
    hintNewer x.ent y.ent = false

def Held (s : Pool) (x : FanoutHint) : Prop :=
  x ∈ s.underWay ∨ x ∈ s.accepted ∨ Kept s.hints x

section Hinted

variable {s : Sys} {t : Hints.Turn} {h x : FanoutHint}

theorem sent_step {p : Bytes × FanoutHint} (hp : p ∈ s.sent) : p ∈ (Hints.step s t).sent := by
  cases t with
  | replayHint ok =>
    simp only [Hints.step]
    split
    · split
      · exact List.mem_append_left _ hp
      · exact hp
    · exact hp
  | enqueueHint | peekHint | popHint | close =>
    simp only [Hints.step]
    repeat' split
    all_goals exact hp

theorem opened_step (hopen : (s.pool.hintsDisabled || s.pool.closed) = false) (ht : t ≠ .close) :
    ((Hints.step s t).pool.hintsDisabled || (Hints.step s t).pool.closed) = false := by
  cases t with
  | close => exact absurd rfl ht
  | enqueueHint | peekHint | replayHint | popHint =>
    simp only [Hints.step, FanoutPool.enqueueHint, FanoutPool.popHint]
    repeat' split
    all_goals exact hopen

/-- Nothing but a newer hint or an accepted replay takes a hint away. -/
theorem Kept.step (hs : Settled s) (ht : ∀ h, t = .enqueueHint h → TakenIn s h) (hx : Kept s x) :
    Kept (Hints.step s t) x := by
  obtain ⟨y, hy | ⟨hsent, hid⟩, hnew⟩ := hx
  · rcases kept_or_excused (t := t) hs x.peer.addr x.id y hy with hkept | hexcuse
    · exact ⟨y, .inl hkept, hnew⟩
    · cases hexcuse with
      | replayed h hsent hid hold =>
        exact ⟨h, .inr ⟨sent_step hsent, hid⟩, not_hintNewer_trans hnew hold⟩
      | replaced h hturn hid hqueued hnewer =>
        exact ⟨h, .inl hqueued, not_hintNewer_trans hnew (not_hintNewer_of_hintNewer hnewer)⟩
      | deleted h hturn haddr htomb hadd =>
        have hfree := (ht h hturn).2.1 x.id
        rw [haddr] at hfree
        have hmem := (PeerHintQ.filed _ x.id y hy).1
        exact absurd hadd (Bool.eq_false_iff.mp (hfree hmem y hy))
      | capped h hturn haddr hover =>
        have hroom := (ht h hturn).2.2.2
        rw [haddr] at hroom
        rw [hroom] at hover
        cases hover
  · exact ⟨y, .inr ⟨sent_step hsent, hid⟩, hnew⟩

/-- A hint that is taken in is queued, or one that is as new. -/
theorem kept_enqueue (hopen : (s.pool.hintsDisabled || s.pool.closed) = false)
    (haddr : h.peer.addr ≠ []) (htaken : TakenIn s h) : Kept (Hints.step s (.enqueueHint h)) h := by
  let q := (s.pool.queue h.peer.addr).dropAdds h
  have hitems : (Hints.step s (.enqueueHint h)).pool.queued h.peer.addr h.id =
      (q.file s.pool.hintMax h).items[h.id]? := by
    have hqueue := FanoutPool.queue_enqueueHint (p := s.pool) (h := h)
      (by simp [hopen, haddr]) h.peer.addr
    have hturned : (q.deleted h) = false := htaken.2.2.1
    rw [FanoutPool.queued, Hints.step, hqueue, if_pos rfl]
    simp only [PeerHintQ.enqueue, hturned, q, Bool.false_eq_true, if_false]
  rcases q.file_self s.pool.hintMax h with ⟨-, hnow⟩ | ⟨old, -, ⟨-, hnow⟩ | ⟨hnew, hstill⟩⟩
  · exact ⟨h, .inl (hitems.trans hnow), hintNewer_self _⟩
  · exact ⟨h, .inl (hitems.trans hnow), hintNewer_self _⟩
  · exact ⟨old, .inl (hitems.trans hstill), hnew⟩

end Hinted

section Runs

variable {s : Pool} {t : Turn} {x : FanoutHint}

theorem mem_flatten_set {α : Type} {xss : List (List α)} {i : ℕ} {xs ys : List α} {x : α}
    (hi : xss[i]? = some xs) (hx : x ∈ ys ∨ x ∈ xss.flatten ∧ x ∉ xs) :
    x ∈ (xss.set i ys).flatten := by
  obtain ⟨hlt, rfl⟩ := List.getElem?_eq_some_iff.mp hi
  rcases hx with hy | ⟨hx, hnot⟩
  · exact List.mem_flatten.mpr ⟨ys, List.mem_set hlt ys, hy⟩
  · obtain ⟨zs, hzs, hz⟩ := List.mem_flatten.mp hx
    obtain ⟨j, hj⟩ := List.mem_iff_getElem?.mp hzs
    have hne : i ≠ j := by
      rintro rfl
      rw [List.getElem?_eq_getElem hlt, Option.some.injEq] at hj
      exact hnot (hj ▸ hz)
    refine List.mem_flatten.mpr ⟨zs, List.mem_iff_getElem?.mpr ⟨j, ?_⟩, hz⟩
    rw [List.getElem?_set_ne hne, hj]

/-- The hints are open to more. -/
structure Ready (s : Pool) : Prop where
  settled : Settled s.hints
  opened : (s.hints.pool.hintsDisabled || s.hints.pool.closed) = false

theorem Ready.step (hs : Ready s) (ht : Calm s t) : Ready (step s t) := by
  have hhints : ∀ t, Undisturbed s.hints t → t ≠ .close →
      Ready { s with hints := Hints.step s.hints t } := fun t hstill hopen =>
    ⟨settled_step hs.settled hstill, opened_step hs.opened hopen⟩
  cases t with
  | hints t =>
    cases t with
    | enqueueHint h =>
      simp only [Fanout.step]
      split
      · exact ⟨settled_step hs.settled ht.1, opened_step hs.opened nofun⟩
      · exact hs
    | close => exact ht.elim
    | peekHint | replayHint | popHint => exact hhints _ trivial nofun
  | submit | apply | take | reply =>
    simp only [Fanout.step]
    repeat' split
    all_goals exact ⟨hs.settled, hs.opened⟩

/-- One step loses nothing that is held, and takes in what is issued. -/
theorem held_step (hs : Ready s) (ht : Calm s t) (haddr : x.peer.addr ≠ [])
    (hx : Held s x ∨ x ∈ t.issued) : Held (step s t) x := by
  obtain ⟨hsettled, hopen⟩ := hs
  have hclosed : ¬ s.hints.pool.closed = true := by
    simp only [Bool.or_eq_false_iff] at hopen
    simp [hopen.2]
  have happlies : ∀ job : FanoutJob, x ∈ job.hints → x ∈ job.applies := fun job hx =>
    List.mem_filter.mpr ⟨hx, by simpa using haddr⟩
  cases t with
  | submit job =>
    have happlies := happlies job
    simp only [step, if_neg hclosed]
    split
    all_goals
      simp only [Held, Pool.underWay, Turn.issued, List.mem_append, List.flatMap_append,
        List.flatMap_singleton] at hx ⊢
      tauto
  | apply job =>
    have happlies := happlies job
    simp only [step, if_neg hclosed, Held, Pool.underWay, Turn.issued, List.mem_append,
      List.flatten_append, List.flatten_singleton] at hx ⊢
    tauto
  | take worker =>
    have hheld : Held s x := hx.resolve_right (List.not_mem_nil)
    simp only [step]
    split
    next job jobs hjobs hw =>
      split
      · have hset : x ∈ job.applies ∨ x ∈ s.waiting.flatten →
            x ∈ (s.waiting.set worker job.applies).flatten := fun hx =>
          mem_flatten_set hw (hx.imp_right fun hx => ⟨hx, List.not_mem_nil⟩)
        simp only [Held, Pool.underWay, hjobs, List.mem_append, List.flatMap_cons] at hheld ⊢
        tauto
      · exact hheld
    · exact hheld
  | reply waiter h ok =>
    have hheld : Held s x := hx.resolve_right (List.not_mem_nil)
    simp only [step]
    rcases hcalls : s.waiting[waiter]? with _ | calls
    · dsimp only
      exact hheld
    · dsimp only
      split
      · have hset : x ∈ s.waiting.flatten →
            x = h ∨ x ∈ (s.waiting.set waiter (calls.erase h)).flatten := by
          intro hx
          by_cases hxh : x = h
          · exact .inl hxh
          · refine .inr (mem_flatten_set hcalls ?_)
            rw [List.mem_erase_of_ne hxh]
            tauto
        split
        all_goals
          simp only [Held, Pool.underWay, List.mem_append, List.mem_cons] at hheld ⊢
          tauto
      · exact hheld
  | hints t =>
    have hheld : Held s x := hx.resolve_right (List.not_mem_nil)
    cases t with
    | enqueueHint h =>
      simp only [step]
      split
      · rcases hheld with hway | hacc | hkept
        · by_cases hxh : x = h
          · subst hxh
            exact .inr (.inr (kept_enqueue hopen haddr ht))
          · refine .inl ?_
            simp only [Pool.underWay, List.mem_append, List.mem_erase_of_ne hxh] at hway ⊢
            exact hway
        · exact .inr (.inl hacc)
        · exact .inr (.inr (hkept.step hsettled fun h' heq => by cases heq; exact ht))
      · exact hheld
    | close => exact ht.elim
    | peekHint | replayHint | popHint =>
      rcases hheld with hway | hacc | hkept
      · exact .inl hway
      · exact .inr (.inl hacc)
      · exact .inr (.inr (hkept.step hsettled nofun))

end Runs

/-- Nothing is lost in the fan-out: in every interleaving in which the pool stays open and the
queues take in the hints, a mutation that was issued for a peer is under way, accepted by the peer,
or covered by a hint that is queued for the peer or was accepted. -/
theorem no_mutation_lost (cfg : FanoutConfig) (hhints : cfg.disableHints = false)
    (turns : List Turn) (hcalm : Along step Calm (newFanoutPool cfg) turns) :
    ∀ t ∈ turns, ∀ x ∈ t.issued, x.peer.addr ≠ [] →
      Held (turns.foldl step (newFanoutPool cfg)) x := by
  intro t ht x hx haddr
  obtain ⟨pre, post, rfl⟩ := List.append_of_mem ht
  obtain ⟨hpre, hnow, hpost⟩ := Along.append_iff.mp hcalm
  have hstart : Ready (newFanoutPool cfg) := by
    refine ⟨settled_start _ _, ?_⟩
    simp [newFanoutPool, start, Hints.newFanoutPool, hhints]
  have hready := Along.invariant (fun _ _ hs ht => Ready.step hs ht) hstart hpre
  rw [List.foldl_append, List.foldl_cons]
  exact (Along.invariant (I := fun s => Ready s ∧ Held s x)
    (fun s t hs ht => ⟨hs.1.step ht, held_step hs.1 ht haddr (.inl hs.2)⟩)
    ⟨hready.step hnow, held_step hready hnow haddr (.inr hx)⟩ hpost).2

/-- Of three mutations one is turned away by a full queue and replayed, one is not accepted and
hinted, and one is still in the queue. -/
theorem no_mutation_lost_overflow :
    let cfg : FanoutConfig := ⟨1, 1, false, 0⟩
    let job (v : UInt8) : FanoutJob := ⟨[⟨[97], [1]⟩], [], [v], ⟨[v], 1, 0, 0⟩, 0⟩
    let hint (v : UInt8) : FanoutHint := ⟨⟨[97], [1]⟩, [], [v], ⟨[v], 1, 0, 0⟩, 0⟩
    let turns : List Turn := [.submit (job 1), .submit (job 2), .hints (.enqueueHint (hint 2)),
      .take 0, .hints (.peekHint [1]), .submit (job 3), .reply 0 (hint 1) false,
      .hints (.replayHint true), .hints (.enqueueHint (hint 1)), .hints .popHint]
    let s := turns.foldl step (newFanoutPool cfg)
    (s.underWay = [hint 3] ∧ s.accepted = [] ∧ s.hints.sent = [([1], hint 2)]) ∧
      ∀ t ∈ turns, ∀ x ∈ t.issued, x.peer.addr ≠ [] → Held s x := by
  intro cfg job hint turns s
  exact ⟨by decide +kernel, no_mutation_lost cfg rfl turns (by decide +kernel)⟩

end Supercache.Fanout
