import Supercache.Engine
import Supercache.Announce

/-!
Replication by snapshots. After a mutation the owner reads the version of the name, then its
bytes, and sends both; a replica installs what is newer than what it holds. Any number of calls
run at once, one locked section at a time. The modes differ in their mutations and in what an
install accepts.
-/
namespace Supercache.SnapshotReplication

open Wire Lru Announce Latest Owner Replica

/-- What the owner does after the store's answer to a mutation: return, ask whether the
name is there and return, ask and go on if it is, or go on. -/
inductive Next where
  | stop
  | probe
  | check
  | announce
deriving DecidableEq

def view : Option LruItem → Option (ℕ × Bytes)
  | none => none
  | some it => some (it.entry.version, it.flush.1.entry.value)

/-- Nothing, or an item of one mode that does not expire before `T`. -/
def Held (flag : ℕ) (T : ℤ) (old : Option LruItem) : Prop :=
  ∀ it, old = some it →
    it.entry.flags = flag ∧ Entry.Lasts T it.entry.expireAt ∧ it.l.Backed

/-- What a mutation does to an item: nothing a reader can see, or a write under the
next version with bytes that are ready to be sent. Only modes that check go on after a
question. -/
inductive Effect (flag : ℕ) (checks : Bool) (ready : Bytes → Bool) (T : ℤ)
    (old : Option LruItem) : Option LruItem → Next → Prop
  | idle (new : Option LruItem) (next : Next) (hheld : Held flag T new)
    (hview : view new = view old) (hcheck : next = .check → checks = true ∧ old = none)
    (hnext : next ≠ .announce) : Effect flag checks ready T old new next
  | wrote (it : LruItem) (next : Next) (hheld : Held flag T (some it))
    (hversion : it.entry.version = Store.nextStored (old.map fun it => it.entry.version))
    (hready : ready it.flush.1.entry.value = true)
    (hnext : next = .announce ∨ next = .check ∧ checks = true) :
    Effect flag checks ready T old (some it) next

structure Receiver where
  flag : ℕ
  /-- The check on the bytes before the store, which the owner makes too before it sends. -/
  snapshot : Bytes → Bool
  install : Bytes → Bytes → ℕ → ℤ → Verb LruItem Bool
  /-- The store's check on the bytes. -/
  decodes : Bytes → Bool
  flag_pinned : flag ∈ Entry.pinnedFlags
  flag_self : (flag &&& flag != 0) = true
  snapshot_decodes : ∀ blob, decodes blob = true → snapshot blob = true
  install_view : ∀ {T : ℤ} {old : Option LruItem} {blob : Bytes} {expire : ℤ} (env : Env)
    (key : Bytes) (version : ℕ), env.now < T → Held flag T old → Entry.Lasts T expire →
    decodes blob = true →
    let new := (install key blob version expire env old).act.result old
    Held flag T new ∧ view new = latest Prod.fst (view old) (version, blob)

structure SnapMode extends Receiver where
  /-- The mutations. -/
  Call : Type
  mutate : Call → Bytes → ℕ → ℤ → Verb LruItem Next
  has : Verb LruItem Bool
  /-- Whether some mutation goes on only if the name is there. -/
  checks : Bool
  /-- Bytes the owner's checks let pass. -/
  ready : Bytes → Bool
  /-- The arguments are in the range of their types. -/
  Fits : Call → Prop
  mutate_effect : ∀ {T : ℤ} {call : Call} {old : Option LruItem} {expire : ℤ} (env : Env)
    (key : Bytes) (gate : ℕ), Fits call → env.now < T → Held flag T old → Entry.Lasts T expire →
    let plan := mutate call key gate expire env old
    Effect flag checks ready T old (plan.act.result old) (plan.ret (plan.act.result old).isSome)
  has_view : ∀ {T : ℤ} {old : Option LruItem} (env : Env), env.now < T → Held flag T old →
    Held flag T ((has env old).act.result old) ∧ view ((has env old).act.result old) = view old
  has_missing : ∀ env still, (has env none).ret still = false
  has_ready : ∀ {T : ℤ} {it : LruItem} (env : Env), checks = true → env.now < T →
    Held flag T (some it) → ready it.flush.1.entry.value = true →
    ∀ still, (has env (some it)).ret still = true
  snapshot_ready : ∀ blob, ready blob = true → snapshot blob = true

inductive Stage where
  | start
  | gated (gate : ℕ) (expire : ℤ)
  | probing
  | checking (expire : ℤ)
  | applied (expire : ℤ)
  | versioned (version : ℕ) (expire : ℤ)
  | observed (version : ℕ) (expire : ℤ)
  | peeked (msg : Option Entry)
  | finished (announced : Bool)
deriving DecidableEq

section Calls

variable (mode : SnapMode)

def message (version : ℕ) (expire : ℤ) (ent : Option Entry) : Option Entry :=
  match ent with
  | none => none
  | some ent =>
    if ent.has mode.flag && mode.snapshot ent.value then
      some ⟨ent.value, version, expire, mode.flag⟩
    else none

def afterMutate (expire : ℤ) : Next → Stage
  | .stop => .finished false
  | .probe => .probing
  | .check => .checking expire
  | .announce => .applied expire

def callStep (key : Bytes) (ttl now : ℤ) (walk : Walk) (call : mode.Call) (ks : KsRuntime) :
    Stage → KsRuntime × Stage
  | .start =>
    let (store, cur) := ks.store.perform now key Store.peekVersion
    ({ ks with store := store }, .gated (bump (cur.getD 0)) (expireAt now ttl))
  | .gated gate expire =>
    let (store, next) := ks.store.perform now key (mode.mutate call key gate expire)
    ({ ks with store := store }, afterMutate expire next)
  | .probing => ({ ks with store := (ks.store.perform now key mode.has).1 }, .finished false)
  | .checking expire =>
    let (store, there) := ks.store.perform now key mode.has
    ({ ks with store := store }, if there then .applied expire else .finished false)
  | .applied expire =>
    let (store, ver) := ks.store.perform now key Store.peekVersion
    ({ ks with store := store }, .versioned (ver.getD 0) expire)
  | .versioned version expire =>
    (ks.observeVersion now walk key version, .observed version expire)
  | .observed version expire =>
    let (store, ent) := ks.store.perform now key (Store.peek key)
    ({ ks with store := store }, .peeked (message mode version expire ent))
  | .peeked _ => (ks, .finished true)
  | .finished announced => (ks, .finished announced)

structure Thread where
  call : mode.Call
  stage : Stage

structure Sys where
  ks : KsRuntime
  threads : List (Thread mode)
  /-- What the owner has handed to the network. -/
  sent : List Entry

def outgoing : Stage → List Entry
  | .peeked msg => msg.toList
  | _ => []

variable {mode}

def step (key : Bytes) (ttl : ℤ) (s : Sys mode) (t : Turn ℕ) : Sys mode :=
  match s.threads[t.who]? with
  | none => s
  | some p =>
    let (ks, stage) := callStep mode key ttl t.now t.walk p.call s.ks p.stage
    ⟨ks, s.threads.set t.who { p with stage := stage }, outgoing p.stage ++ s.sent⟩

def run (key : Bytes) (ttl : ℤ) (s : Sys mode) (turns : List (Turn ℕ)) : Sys mode :=
  turns.foldl (step key ttl) s

def applyPut (r : Receiver) (key : Bytes) (ttl now : ℤ) (walk : Walk) (ks : KsRuntime)
    (ent : Entry) : KsRuntime :=
  let ks := ks.observeVersion now walk key ent.version
  let expire := if ent.expireAt = 0 then expireAt now ttl else ent.expireAt
  if r.snapshot ent.value then
    { ks with store := (ks.store.perform now key (r.install key ent.value ent.version expire)).1 }
  else ks

def replicaRun (r : Receiver) (key : Bytes) (ttl : ℤ) (ks : KsRuntime) (arrivals : List Arrival) :
    KsRuntime :=
  arrivals.foldl (fun ks a => applyPut r key ttl a.now a.walk ks a.ent) ks

def content (m : Mem) (now : ℤ) (key : Bytes) : Option (ℕ × Bytes) :=
  (m.perform now key (Store.peek key)).2.map fun e => (e.version, e.value)

end Calls

section Looks

variable {flag : ℕ} {T : ℤ} {now : ℤ} {key : Bytes} {m : Mem}

theorem Held.none (flag : ℕ) (T : ℤ) : Held flag T none := fun _ h => absurd h (by simp)

theorem Held.unexpired {it : LruItem} (h : Held flag T (some it)) (hnow : now < T) :
    it.entry.expired now = false :=
  Entry.expired_of_lasts (h it rfl).2.1 hnow

theorem view_flush (it : LruItem) : view (some it.flush.1) = view (some it) := by
  obtain ⟨blob, hblob⟩ := it.entry_flush
  have hversion : it.flush.1.entry.version = it.entry.version := by rw [hblob]
  simp only [view, it.flush_flush, hversion]

/-- Looking at the store changes nothing of a held item that a reader can see. -/
theorem tidy_held (hnow : now < T) (w : Option (ℕ × Bytes)) :
    Tidy now (fun old => Held flag T old ∧ view old = w) where
  flush := by
    rintro it ⟨hheld, hview⟩
    obtain ⟨hflags, hlasts, hbacked⟩ := hheld it rfl
    obtain ⟨blob, hblob⟩ := it.entry_flush
    refine ⟨?_, (view_flush it).trans hview⟩
    rintro it' heq
    obtain rfl := Option.some.inj heq
    refine ⟨by rw [hblob]; exact hflags, by rw [hblob]; exact hlasts, ?_⟩
    rcases it.l_flush with hl | hl
    · rw [hl]
      exact hbacked
    · rw [hl]
      exact nofun
  expire := by
    rintro it hx ⟨hheld, -⟩
    rw [hheld.unexpired hnow] at hx
    exact absurd hx Bool.false_ne_true

/-- After a verb that only looks, the name is as it was. -/
theorem Held.looked (h : Held flag T (m.lookup key)) (hnow : now < T) {ρ : Type}
    {v : Verb LruItem ρ} (hv : Looking v) : Held flag T ((m.perform now key v).1.lookup key) ∧
      view ((m.perform now key v).1.lookup key) = view (m.lookup key) :=
  (tidy_held hnow _).looks (hv.lookup m now key key) ⟨h, rfl⟩

/-- What a verb leaves of a held item stays: eviction spares the mode. -/
theorem lookup_perform_of_held {ρ : Type} {v : Verb LruItem ρ} (hpin : flag ∈ Entry.pinnedFlags)
    (hself : (flag &&& flag != 0) = true) (hnow : now < T)
    (hheld : Held flag T ((v (m.env now) (m.lookup key)).act.result (m.lookup key))) :
    (m.perform now key v).1.lookup key =
      (v (m.env now) (m.lookup key)).act.result (m.lookup key) := by
  rcases m.lookup_perform now key v key with heq | ⟨-, it, hit, hunpinned⟩
  · rw [heq, Memory.expected, if_pos rfl]
  · rw [Memory.expected, if_pos rfl] at hit
    rw [hit] at hheld
    have hhas : it.entry.has flag = true :=
      (Entry.has_of_flags (hheld it rfl).1 flag).trans hself
    have hpinned := Entry.pinned_of_flags hpin hhas (hheld.unexpired hnow)
    exact absurd (hpinned.symm.trans hunpinned) (by simp)

variable {c : ℕ × Bytes}

variable (hheld : Held flag T (m.lookup key)) (hnow : now < T)
include hheld hnow

theorem peekVersion_of_held
    (hc : view (m.lookup key) = some c) : (m.perform now key Store.peekVersion).2.getD 0 = c.1 := by
  rw [peekVersion_ret]
  cases hlook : m.lookup key with
  | none => simp [hlook, view] at hc
  | some it =>
    rw [hlook] at hheld hc
    rw [← Option.some.inj hc]
    simp [storedVersion, hheld.unexpired hnow]

/-- A peek returns the view, with the flag of the mode. -/
theorem peek_of_held (hc : view (m.lookup key) = some c) :
    ∃ e, (m.perform now key (Store.peek key)).2 = some e ∧ e.version = c.1 ∧ e.value = c.2 ∧
      e.flags = flag := by
  cases hlook : m.lookup key with
  | none => simp [hlook, view] at hc
  | some it =>
    rw [hlook] at hheld hc
    obtain ⟨blob, hblob⟩ := it.entry_flush
    have hplan := Store.peek_of_unexpired (m.env now) it key (hheld.unexpired hnow)
    refine ⟨it.flush.1.entry, ?_, ?_, ?_, ?_⟩
    · rw [Memory.perform_ret, hlook, hplan]
      rfl
    · rw [← Option.some.inj hc, hblob]
    · rw [← Option.some.inj hc]
    · rw [hblob]
      exact (hheld it rfl).1

theorem content_of_held :
    content m now key = view (m.lookup key) := by
  cases hc : view (m.lookup key) with
  | none =>
    cases hlook : m.lookup key with
    | none =>
      rw [content, Memory.perform_ret, hlook]
      rfl
    | some it => simp [hlook, view] at hc
  | some c =>
    obtain ⟨e, he, hversion, hvalue, -⟩ := peek_of_held hheld hnow hc
    rw [content, he, Option.map_some, hversion, hvalue]

end Looks

section Owner

variable {mode : SnapMode} {key : Bytes} {ttl T : ℤ}

namespace Stage

def phase : Stage → Phase Bytes
  | start | gated _ _ | probing | peeked none => .idle
  | checking _ | applied _ => .wrote
  | versioned version _ | observed version _ => .read version
  | peeked (some msg) => .taken (msg.version, msg.value)
  | finished announced => .done announced

def Ok (checks : Bool) (T : ℤ) : Stage → Prop
  | checking expire => checks = true ∧ Entry.Lasts T expire
  | gated _ expire | applied expire | versioned _ expire | observed _ expire =>
    Entry.Lasts T expire
  | peeked none => False
  | peeked (some msg) => Entry.Lasts T msg.expireAt
  | _ => True

end Stage

def stamp (e : Entry) : ℕ × Bytes := (e.version, e.value)

def versionOf (cur : Option (ℕ × Bytes)) : ℕ := (cur.map Prod.fst).getD 0

theorem lt_of_version {cur : Option (ℕ × Bytes)} {version : ℕ} (h : version = versionOf cur + 1) :
    ∀ c₀, cur = some c₀ → c₀.1 < version := by
  rintro c₀ rfl
  rw [h]
  exact Nat.lt_succ_self _

/-- The next version, while there is room for one. -/
theorem nextStored_of_room {old : Option LruItem} {n bound : ℕ}
    (hroom : versionOf (view old) + n ≤ bound) (hn : 0 < n) (hbound : bound < 2 ^ 64) :
    Store.nextStored (old.map fun it => it.entry.version) = versionOf (view old) + 1 := by
  cases old with
  | none => rfl
  | some it =>
    have hlt : it.entry.version + 1 < 2 ^ 64 := by
      have hstored : versionOf (view (some it)) = it.entry.version := rfl
      omega
    exact bump_of_lt hlt

structure WritesInOrder (key : Bytes) (T : ℤ) (init : Option (ℕ × Bytes)) (bound : ℕ)
    (s : Sys mode) : Prop where
  held : Held mode.flag T (s.ks.store.lookup key)
  inv : Inv init (view (s.ks.store.lookup key)) (s.threads.map fun p => p.stage.phase)
    (s.sent.map stamp)
  ready : Moved init (view (s.ks.store.lookup key)) →
    ∀ c, view (s.ks.store.lookup key) = some c → mode.ready c.2 = true
  room : versionOf (view (s.ks.store.lookup key)) +
    s.threads.countP (fun p => p.stage.phase.isIdle) ≤ bound
  fits : ∀ p ∈ s.threads, mode.Fits p.call
  stages : ∀ p ∈ s.threads, p.stage.Ok mode.checks T
  there : ∀ p ∈ s.threads, ∀ expire, p.stage = .applied expire →
    view (s.ks.store.lookup key) ≠ none
  lasts : ∀ e ∈ s.sent, Entry.Lasts T e.expireAt

namespace WritesInOrder

variable {init : Option (ℕ × Bytes)} {bound : ℕ} {s : Sys mode} {i : ℕ} {p : Thread mode}

variable {now expire : ℤ} {ks : KsRuntime} {stage : Stage}

/-- A call moves on to `stage` while nobody can see a change of the name. -/
theorem quiet (h : WritesInOrder key T init bound s) (hi : s.threads[i]? = some p)
    (hks : Held mode.flag T (ks.store.lookup key) ∧
      view (ks.store.lookup key) = view (s.ks.store.lookup key)) (hok : stage.Ok mode.checks T)
    (hthere : ∀ expire, stage = .applied expire → view (s.ks.store.lookup key) ≠ none)
    (hidle : stage.phase.isIdle = true → p.stage.phase.isIdle = true)
    (hsound : stage.phase.Sound (view (s.ks.store.lookup key)))
    (hwrote : stage.phase = .wrote → Moved init (view (s.ks.store.lookup key)) ∨ init = none)
    (hpassed : stage.phase.Passed → Moved init (view (s.ks.store.lookup key)))
    (hcovers : Moved init (view (s.ks.store.lookup key)) →
      ∀ c, view (s.ks.store.lookup key) = some c → p.stage.phase.Covers c →
        c ∈ s.sent.map stamp ∨ stage.phase.Covers c) :
    WritesInOrder key T init bound ⟨ks, s.threads.set i { p with stage := stage }, s.sent⟩ := by
  obtain ⟨hheld, hview⟩ := hks
  have hphase : (s.threads.map fun p => p.stage.phase)[i]? = some p.stage.phase := by
    rw [List.getElem?_map, hi, Option.map_some]
  have hcount : (s.threads.set i { p with stage := stage }).countP (fun p => p.stage.phase.isIdle) ≤
      s.threads.countP fun p => p.stage.phase.isIdle := countP_set_le hi hidle
  refine ⟨hheld, ?_, ?_, ?_, ?_, ?_, ?_, h.lasts⟩
  · rw [hview, List.map_set]
    exact h.inv.advance hphase hsound hwrote hpassed hcovers
  · rw [hview]
    exact h.ready
  · rw [hview]
    exact (Nat.add_le_add_left hcount _).trans h.room
  · exact forall_mem_set h.fits (h.fits p (List.mem_of_getElem? hi))
  · exact forall_mem_set h.stages hok
  · rw [hview]
    exact forall_mem_set h.there hthere

/-- A call writes the name under the next version. -/
theorem write (h : WritesInOrder key T init bound s) (hi : s.threads[i]? = some p) {it : LruItem}
    (hlook : ks.store.lookup key = some it) (hheld : Held mode.flag T (some it))
    (hversion : it.entry.version = versionOf (view (s.ks.store.lookup key)) + 1)
    (hready : mode.ready it.flush.1.entry.value = true) (hidle : p.stage.phase.isIdle = true)
    (hstage : stage.phase.isIdle = false) (hok : stage.Ok mode.checks T)
    (hphase : stage.phase = .wrote)
    : WritesInOrder key T init bound ⟨ks, s.threads.set i { p with stage := stage }, s.sent⟩ := by
  have hold : (s.threads.map fun p => p.stage.phase)[i]? = some p.stage.phase := by
    rw [List.getElem?_map, hi, Option.map_some]
  have hcount : (s.threads.set i { p with stage := stage }).countP
    (fun p => p.stage.phase.isIdle) + 1 =
      s.threads.countP fun p => p.stage.phase.isIdle := countP_set_succ hi hidle hstage
  refine ⟨hlook ▸ hheld, ?_, ?_, ?_, ?_, ?_, ?_, h.lasts⟩
  · rw [hlook, List.map_set, hphase]
    exact h.inv.write hold (lt_of_version hversion)
  · rintro - c hc
    rw [hlook] at hc
    rw [← Option.some.inj hc]
    exact hready
  · have hroom := h.room
    have hstored : versionOf (view (ks.store.lookup key)) = it.entry.version := by
      rw [hlook]
      rfl
    rw [hstored, hversion]
    dsimp only
    omega
  · exact forall_mem_set h.fits (h.fits p (List.mem_of_getElem? hi))
  · exact forall_mem_set h.stages hok
  · intro _ _ _ _
    rw [hlook]
    simp [view]

theorem post (h : WritesInOrder key T init bound s) {e : Entry}
    (hbehind : Behind (stamp e) (view (s.ks.store.lookup key)))
    (hlasts : Entry.Lasts T e.expireAt) :
    WritesInOrder key T init bound { s with sent := e :: s.sent } where
  held := h.held
  inv := h.inv.post hbehind
  ready := h.ready
  room := h.room
  fits := h.fits
  stages := h.stages
  there := h.there
  lasts := List.forall_mem_cons.mpr ⟨hlasts, h.lasts⟩

/-- The phase of a call is among the phases. -/
theorem phase_mem (hi : s.threads[i]? = some p) :
    p.stage.phase ∈ s.threads.map fun p => p.stage.phase :=
  List.mem_map_of_mem (List.mem_of_getElem? hi)

section

variable (h : WritesInOrder key T init bound s)
include h

/-- The name is as it was after the question whether it is there. -/
theorem asked (hnow : now < T) :
    Held mode.flag T ((s.ks.store.perform now key mode.has).1.lookup key) ∧
      view ((s.ks.store.perform now key mode.has).1.lookup key) = view (s.ks.store.lookup key) := by
  have hhas := mode.has_view (s.ks.store.env now) hnow h.held
  rw [lookup_perform_of_held mode.flag_pinned mode.flag_self hnow hhas.1]
  exact hhas

/-- The section in which the store's mutation runs. -/
theorem gated (hbound : bound < 2 ^ 64) (hi : s.threads[i]? = some p)
    (hnow : now < T) {gate : ℕ} (hstage : p.stage = .gated gate expire) :
    let after := s.ks.store.perform now key (mode.mutate p.call key gate expire)
    WritesInOrder key T init bound ⟨{ s.ks with store := after.1 },
      s.threads.set i { p with stage := afterMutate expire after.2 }, s.sent⟩ := by
  intro after
  have hmem := List.mem_of_getElem? hi
  have hexp : Entry.Lasts T expire := by
    have hok := h.stages p hmem
    rwa [hstage] at hok
  have hidle : p.stage.phase.isIdle = true := by rw [hstage]; rfl
  have hphase : p.stage.phase = .idle := by rw [hstage]; rfl
  have heffect := mode.mutate_effect (s.ks.store.env now) key gate (h.fits p hmem) hnow
    h.held hexp
  dsimp only at heffect
  have hret : after.2 = (mode.mutate p.call key gate expire (s.ks.store.env now)
      (s.ks.store.lookup key)).ret (after.1.lookup key).isSome := Memory.perform_ret ..
  generalize hplan : mode.mutate p.call key gate expire (s.ks.store.env now)
    (s.ks.store.lookup key) = plan at heffect hret
  generalize hnew : plan.act.result (s.ks.store.lookup key) = new at heffect
  have hlook (hheld : Held mode.flag T new) : after.1.lookup key = new := by
    rw [lookup_perform_of_held mode.flag_pinned mode.flag_self hnow
      (by rw [hplan, hnew]; exact hheld),
      hplan, hnew]
  generalize hnext : plan.ret new.isSome = next at heffect
  cases heffect with
  | idle _ _ hheld hview hcheck hne =>
    rw [hret, hlook hheld, hnext]
    refine h.quiet hi ⟨by rw [hlook hheld]; exact hheld, by rw [hlook hheld]; exact hview⟩ ?_ ?_ ?_
      ?_ ?_ ?_ ?_
    · cases next with
      | stop | probe => trivial
      | check => exact ⟨(hcheck rfl).1, hexp⟩
      | announce => exact absurd rfl hne
    · rintro expire' heq
      cases next <;> simp [afterMutate] at heq hne
    · exact fun _ => hidle
    · cases next <;> trivial
    · intro hwrote
      cases next with
      | stop | probe => simp [afterMutate, Stage.phase] at hwrote
      | check =>
        rcases h.inv.progress with heq | hmoved
        · rw [(hcheck rfl).2] at heq
          exact Or.inr heq.symm
        · exact Or.inl hmoved
      | announce => exact absurd rfl hne
    · intro hpassed
      cases next with
      | stop | probe | check => exact hpassed.elim
      | announce => exact absurd rfl hne
    · intro _ _ _ hcov
      rw [hphase] at hcov
      exact hcov.elim
  | wrote it _ hheld hversion hready hnext' =>
    rw [hret, hlook hheld, hnext]
    have hpos : 0 < s.threads.countP fun p => p.stage.phase.isIdle :=
      List.countP_pos_iff.mpr ⟨p, hmem, hidle⟩
    refine h.write hi (hlook hheld) hheld (hversion.trans (nextStored_of_room h.room hpos hbound))
      hready hidle ?_ ?_ ?_
    · rcases hnext' with rfl | ⟨rfl, -⟩ <;> rfl
    · rcases hnext' with rfl | ⟨rfl, hchecks⟩
      · exact hexp
      · exact ⟨hchecks, hexp⟩
    · rcases hnext' with rfl | ⟨rfl, -⟩ <;> rfl

section

variable (hi : s.threads[i]? = some p) (hnow : now < T)
include hi hnow

/-- The section that asks whether the name is there before going on. -/
theorem checked (hstage : p.stage = .checking expire) :
    let after := s.ks.store.perform now key mode.has
    WritesInOrder key T init bound ⟨{ s.ks with store := after.1 },
      s.threads.set i { p with stage := if after.2 then .applied expire else .finished false },
      s.sent⟩ := by
  intro after
  have hmem := List.mem_of_getElem? hi
  obtain ⟨hchecks, hexp⟩ : mode.checks = true ∧ Entry.Lasts T expire := by
    have hok := h.stages p hmem
    rwa [hstage] at hok
  have hwrote : Moved init (view (s.ks.store.lookup key)) ∨ init = none := by
    have hphase := phase_mem hi
    rw [hstage] at hphase
    exact h.inv.wrote hphase
  have hret : after.2 = (mode.has (s.ks.store.env now) (s.ks.store.lookup key)).ret
      (after.1.lookup key).isSome := Memory.perform_ret ..
  cases hthere : after.2 with
  | true =>
    refine h.quiet hi (h.asked hnow) hexp ?_ (by simp [Stage.phase, Phase.isIdle]) trivial
      (fun _ => hwrote)
      (fun hpassed => hpassed.elim) fun _ _ _ _ => Or.inr trivial
    rintro - - hnone
    cases hlook : s.ks.store.lookup key with
    | none =>
      rw [hret, hlook, mode.has_missing] at hthere
      exact absurd hthere Bool.false_ne_true
    | some it =>
      rw [hlook] at hnone
      exact absurd hnone (by simp [view])
  | false =>
    refine h.quiet hi (h.asked hnow) trivial (by simp) (by simp [Stage.phase, Phase.isIdle]) trivial
      (by simp [Stage.phase]) (fun hpassed => hpassed.elim) fun hmoved c hc _ => ?_
    -- a name that was written is ready, so the question is answered yes
    have hready := h.ready hmoved c hc
    have hheld := h.held
    cases hlook : s.ks.store.lookup key with
    | none => simp [hlook, view] at hc
    | some it =>
      rw [hlook] at hc hheld
      rw [← Option.some.inj hc] at hready
      rw [hret, hlook, mode.has_ready (s.ks.store.env now) hchecks hnow hheld hready] at hthere
      exact absurd hthere (by simp)

/-- The section that reads the version. -/
theorem versioned (hstage : p.stage = .applied expire) :
    let after := s.ks.store.perform now key Store.peekVersion
    WritesInOrder key T init bound ⟨{ s.ks with store := after.1 },
      s.threads.set i { p with stage := .versioned (after.2.getD 0) expire }, s.sent⟩ := by
  intro after
  have hmem := List.mem_of_getElem? hi
  have hexp : Entry.Lasts T expire := by
    have hok := h.stages p hmem
    rwa [hstage] at hok
  obtain ⟨c, hc⟩ := Option.ne_none_iff_exists'.mp (h.there p hmem expire hstage)
  have hphase := phase_mem hi
  rw [hstage] at hphase
  have hmoved := h.inv.moved_of_wrote hphase hc
  have hversion : after.2.getD 0 = c.1 := peekVersion_of_held h.held hnow hc
  rw [hversion]
  refine h.quiet hi (h.held.looked hnow looking_peekVersion) hexp (by simp)
    (by simp [Stage.phase, Phase.isIdle])
    ⟨c, hc, le_rfl⟩ (by simp [Stage.phase]) (fun _ => hmoved) fun _ c' hc' _ => Or.inr ?_
  rw [Option.some.inj (hc.symm.trans hc')]
  rfl

/-- The section that reads the bytes. -/
theorem peeked {version : ℕ} (hstage : p.stage = .observed version expire) :
    let after := s.ks.store.perform now key (Store.peek key)
    WritesInOrder key T init bound ⟨{ s.ks with store := after.1 },
      s.threads.set i { p with stage := .peeked (message mode version expire after.2) },
      s.sent⟩ := by
  intro after
  have hmem := List.mem_of_getElem? hi
  have hexp : Entry.Lasts T expire := by
    have hok := h.stages p hmem
    rwa [hstage] at hok
  have hphase := phase_mem hi
  rw [hstage] at hphase
  have hmoved := h.inv.passed _ hphase trivial
  obtain ⟨c, hc, hle⟩ := h.inv.sound _ hphase
  obtain ⟨e, he, -, hvalue, hflags⟩ := peek_of_held h.held hnow hc
  have hhas : e.has mode.flag = true := (Entry.has_of_flags hflags _).trans mode.flag_self
  have hsnapshot := mode.snapshot_ready c.2 (h.ready hmoved c hc)
  have hmsg : message mode version expire after.2 = some ⟨c.2, version, expire, mode.flag⟩ := by
    rw [show after.2 = some e from he]
    simp only [message, hhas, hvalue, hsnapshot, Bool.and_self, if_true]
  rw [hmsg]
  refine h.quiet hi (h.held.looked hnow (looking_peek key)) hexp (by simp)
    (by simp [Stage.phase, Phase.isIdle])
    ⟨c, hc, hle, fun heq => Prod.ext heq rfl⟩ (by simp [Stage.phase]) (fun _ => hmoved) ?_
  intro _ c' hc' hcov
  rw [hstage] at hcov
  rw [← Option.some.inj (hc.symm.trans hc')] at hcov ⊢
  exact Or.inr (Prod.ext hcov rfl)

end

/-- Every section of a call keeps what holds of the owner. -/
theorem step (hbound : bound < 2 ^ 64) {t : Turn ℕ} (hnow : t.now < T)
    (hexp : Entry.Lasts T (expireAt t.now ttl)) :
    WritesInOrder key T init bound (SnapshotReplication.step key ttl s t) := by
  unfold SnapshotReplication.step
  split
  · exact h
  next p hi =>
    have hmem := List.mem_of_getElem? hi
    have hphase := phase_mem hi
    have hok := h.stages p hmem
    cases hstage : p.stage with
    | start =>
      refine h.quiet hi (h.held.looked hnow looking_peekVersion) hexp (by simp)
        (by simp [hstage, Stage.phase, Phase.isIdle])
        trivial (by simp [Stage.phase]) (fun hpassed => hpassed.elim) fun _ _ _ hcov => ?_
      rw [hstage] at hcov
      exact hcov.elim
    | gated gate expire => exact h.gated hbound hi hnow hstage
    | probing =>
      refine h.quiet hi (h.asked hnow) trivial (by simp)
        (by simp [Stage.phase, Phase.isIdle]) trivial
        (by simp [Stage.phase]) (fun hpassed => hpassed.elim) fun _ _ _ hcov => ?_
      rw [hstage] at hcov
      exact hcov.elim
    | checking expire => exact h.checked hi hnow hstage
    | applied expire => exact h.versioned hi hnow hstage
    | versioned version expire =>
      rw [hstage] at hphase hok
      refine h.quiet hi ?_ hok (by simp) (by simp [Stage.phase, Phase.isIdle])
        (h.inv.sound _ hphase)
        (by simp [Stage.phase]) (fun _ => h.inv.passed _ hphase trivial) fun _ _ _ hcov => ?_
      · exact (tidy_held hnow _).observeVersion t.walk key version s.ks ⟨h.held, rfl⟩
      · rw [hstage] at hcov
        exact Or.inr hcov
    | observed version expire => exact h.peeked hi hnow hstage
    | peeked msg =>
      rw [hstage] at hphase hok
      cases msg with
      | none => exact hok.elim
      | some e =>
        refine (h.post (h.inv.sound _ hphase) hok).quiet hi ⟨h.held, rfl⟩ trivial (by simp)
          (by simp [Stage.phase, Phase.isIdle]) trivial (by simp [Stage.phase])
          (fun _ => h.inv.passed _ hphase trivial) fun _ c _ hcov => ?_
        rw [hstage] at hcov
        exact Or.inl (List.mem_cons.mpr (Or.inl hcov.symm))
    | finished announced =>
      rw [hstage] at hphase
      refine h.quiet hi ⟨h.held, rfl⟩ trivial (by simp)
        (by simp [Stage.phase, Phase.isIdle]) trivial
        (by simp [Stage.phase]) (fun hpassed => h.inv.passed _ hphase hpassed) fun _ _ _ hcov => ?_
      rw [hstage] at hcov
      exact hcov.elim

theorem run (hbound : bound < 2 ^ 64) {turns : List (Turn ℕ)}
    (hturns : ∀ t ∈ turns, t.now < T ∧ Entry.Lasts T (expireAt t.now ttl)) :
    WritesInOrder key T init bound (SnapshotReplication.run key ttl s turns) := by
  induction turns generalizing s with
  | nil => exact h
  | cons t turns ih =>
    obtain ⟨⟨hnow, hexp⟩, hrest⟩ := List.forall_mem_cons.mp hturns
    exact ih (h.step hbound hnow hexp) hrest

end

theorem start {threads : List (Thread mode)} (hheld : Held mode.flag T (ks.store.lookup key))
    (hfits : ∀ p ∈ threads, mode.Fits p.call) (hstart : ∀ p ∈ threads, p.stage = .start) :
    WritesInOrder key T (view (ks.store.lookup key))
    (versionOf (view (ks.store.lookup key)) + threads.length)
      ⟨ks, threads, []⟩ where
  held := hheld
  inv := by
    refine Inv.start _ fun q hq => ?_
    obtain ⟨p, hp, rfl⟩ := List.mem_map.mp hq
    rw [hstart p hp]
    rfl
  ready := by
    rintro ⟨c, hc, hlt⟩
    exact absurd (hlt c hc) (lt_irrefl _)
  room := Nat.add_le_add_left List.countP_le_length _
  fits := hfits
  stages p hp := by
    rw [hstart p hp]
    trivial
  there p hp expire hstage := by
    rw [hstart p hp] at hstage
    exact absurd hstage (by simp)
  lasts := by simp

end WritesInOrder

end Owner

section Replica

variable {key : Bytes} {ttl T : ℤ}

variable {arrivals : List Arrival} {now : ℤ} {ks : KsRuntime}

/-- A replica keeps the newer of what it holds and what arrives. -/
theorem applyPut_view (r : Receiver) (walk : Walk) {ent : Entry}
    (hheld : Held r.flag T (ks.store.lookup key)) (hnow : now < T)
    (hexp : Entry.Lasts T (expireAt now ttl)) (hlasts : Entry.Lasts T ent.expireAt)
    (hdecodes : r.decodes ent.value = true) :
    Held r.flag T ((applyPut r key ttl now walk ks ent).store.lookup key) ∧
      view ((applyPut r key ttl now walk ks ent).store.lookup key) =
        latest Prod.fst (view (ks.store.lookup key)) (stamp ent) := by
  obtain ⟨hobs, hview⟩ := (tidy_held hnow (view (ks.store.lookup key))).observeVersion walk key
    ent.version ks ⟨hheld, rfl⟩
  have hexpire : Entry.Lasts T (if ent.expireAt = 0 then expireAt now ttl else ent.expireAt) := by
    split
    · exact hexp
    · exact hlasts
  have hinstall := r.install_view
    ((ks.observeVersion now walk key ent.version).store.env now) key ent.version hnow hobs hexpire
    hdecodes
  rw [hview] at hinstall
  simp only [applyPut, r.snapshot_decodes _ hdecodes, if_true]
  rw [lookup_perform_of_held r.flag_pinned r.flag_self hnow hinstall.1]
  exact hinstall

theorem replicaRun_view (r : Receiver) (hheld : Held r.flag T (ks.store.lookup key))
    (harrivals : ∀ a ∈ arrivals, a.now < T ∧ Entry.Lasts T (expireAt a.now ttl) ∧
      Entry.Lasts T a.ent.expireAt ∧ r.decodes a.ent.value = true) :
    Held r.flag T ((replicaRun r key ttl ks arrivals).store.lookup key) ∧
      view ((replicaRun r key ttl ks arrivals).store.lookup key) =
        (arrivals.map fun a => stamp a.ent).foldl (latest Prod.fst)
          (view (ks.store.lookup key)) := by
  induction arrivals generalizing ks with
  | nil => exact ⟨hheld, rfl⟩
  | cons a arrivals ih =>
    obtain ⟨⟨hnow, hexp, hlasts, hdecodes⟩, hrest⟩ := List.forall_mem_cons.mp harrivals
    obtain ⟨hheld', hview'⟩ := applyPut_view r a.walk hheld hnow hexp hlasts hdecodes
    have hend := ih hheld' hrest
    rw [hview'] at hend
    exact hend

theorem mem_map_stamp {sent : List Entry}
    (hsame : ∀ ent, ent ∈ arrivals.map Arrival.ent ↔ ent ∈ sent) (msg : ℕ × Bytes) :
    msg ∈ arrivals.map (fun a => stamp a.ent) ↔ msg ∈ sent.map stamp := by
  have hmap : (arrivals.map fun a => stamp a.ent) = (arrivals.map Arrival.ent).map stamp := by
    rw [List.map_map]
    rfl
  simp only [hmap, List.mem_map (f := stamp), hsame]

end Replica

end Supercache.SnapshotReplication
