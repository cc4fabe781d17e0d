import Supercache.SnapshotCalls
import Supercache.Schedule

/-!
Replication of a counter. An increment gets the new value from the store, reads the version in a
later section, and sends the pair, which may join two states. Replicas converge in the runs in
which no increment changes the value while another call is between the two sections.
-/
namespace Supercache.CounterReplication

open Wire Lru Announce Latest Schedule SnapshotReplication Owner Replica

inductive Stage where
  | start
  | gated (gate : ℕ) (expire : ℤ)
  | applied (n expire : ℤ)
  | versioned (n : ℤ) (version : ℕ) (expire : ℤ)
  | observed (n : ℤ) (version : ℕ) (expire : ℤ)
  | finished (announced : Bool)
deriving DecidableEq

namespace Stage

def incrementing : Stage → Bool
  | gated _ _ => true
  | _ => false

def waiting : Stage → Bool
  | applied _ _ => true
  | _ => false

end Stage

def snapshotOf (n : ℤ) (version : ℕ) (expire : ℤ) : Entry :=
  ⟨Counter.encode n, version, expire, flagCounter⟩

def afterIncr (expire : ℤ) (r : ℤ × Bool × Bool) : Stage :=
  if r.2.2 then .finished false else if !r.2.1 then .finished false else .applied r.1 expire

def incrLocal (key : Bytes) (ttl now : ℤ) (walk : Walk) (delta : ℤ) (ks : KsRuntime) :
    Stage → KsRuntime × Stage
  | .start =>
    let (store, cur) := ks.store.perform now key Store.peekVersion
    ({ ks with store := store }, .gated (bump (cur.getD 0)) (expireAt now ttl))
  | .gated gate expire =>
    let (store, r) := ks.store.perform now key (Store.cIncr key delta gate expire)
    ({ ks with store := store }, afterIncr expire r)
  | .applied n expire =>
    let (store, ver) := ks.store.perform now key Store.peekVersion
    ({ ks with store := store }, .versioned n (ver.getD 0) expire)
  | .versioned n version expire =>
    (ks.observeVersion now walk key version, .observed n version expire)
  | .observed _ _ _ => (ks, .finished true)
  | .finished announced => (ks, .finished announced)

structure Incr where
  delta : ℤ
  stage : Stage

structure Sys where
  ks : KsRuntime
  incrs : List Incr
  /-- What the owner has handed to the network. -/
  sent : List Entry
  /-- The states the counter has been in, latest first. -/
  log : List (ℕ × Bytes)

def outgoing : Stage → List Entry
  | .observed n version expire => [snapshotOf n version expire]
  | _ => []

def step (key : Bytes) (ttl : ℤ) (s : Sys) (t : Turn ℕ) : Sys :=
  match s.incrs[t.who]? with
  | none => s
  | some p =>
    let (ks, stage) := incrLocal key ttl t.now t.walk p.delta s.ks p.stage
    ⟨ks, s.incrs.set t.who { p with stage := stage }, outgoing p.stage ++ s.sent,
      (view (ks.store.lookup key)).toList ++ s.log⟩

def run (key : Bytes) (ttl : ℤ) (s : Sys) (turns : List (Turn ℕ)) : Sys :=
  turns.foldl (step key ttl) s

def begin_ (key : Bytes) (ks : KsRuntime) (deltas : List ℤ) : Sys :=
  ⟨ks, deltas.map fun delta => ⟨delta, .start⟩, [], (view (ks.store.lookup key)).toList⟩

theorem counter_plain : PlainFlag flagCounter := by constructor <;> decide

def counterReceiver : Receiver where
  flag := flagCounter
  snapshot _ := true
  install := Store.cInstall
  decodes blob := (Counter.decode blob).isSome
  flag_pinned := counter_plain.pinned
  flag_self := counter_plain.self
  snapshot_decodes _ _ := rfl
  install_view _ key _ hnow hheld hexp hdecodes :=
    counter_plain.checkedInstall_view hdecodes hnow hheld hexp key

/-- An increment that changes the value is applied only while no other call is between
its increment and its look at the version. -/
def Alone (s : Sys) (t : Turn ℕ) : Prop :=
  ∀ p ∈ s.incrs[t.who]?, p.stage.incrementing = true → p.delta ≠ 0 →
    ∀ q ∈ s.incrs, q.stage.waiting = false

instance (s : Sys) (t : Turn ℕ) : Decidable (Alone s t) := by
  unfold Alone
  infer_instance

section Increment

variable {T : ℤ} {old : Option LruItem} {expire : ℤ}

theorem encode_of_decode {b : Bytes} {n : ℤ} (h : Counter.decode b = some n) :
    Counter.encode n = b := by
  unfold Counter.decode at h
  by_cases hlen : b.length ≠ 8
  · simp [hlen] at h
  · rw [if_neg hlen] at h
    rw [not_not] at hlen
    have hlt := leNat_lt b
    have hmod : n % 2 ^ 64 = (leNat b : ℤ) := by
      dsimp only at h
      rw [hlen] at hlt
      split at h <;> obtain rfl := Option.some.inj h <;> omega
    rw [Counter.encode, hmod, Int.toNat_natCast, ← hlen, leBytes_leNat]

/-- An increment leaves the counter as it is, or writes the value it returns under the
next version. Adding zero writes the bytes that were there. -/
theorem cIncr_effect (env : Env) (hnow : env.now < T) (hheld : Held flagCounter T old)
    (hexp : Entry.Lasts T expire) (key : Bytes) (delta : ℤ) (gate : ℕ) :
    let plan := Store.cIncr key delta gate expire env old
    (plan.act.result old = old ∧ ∀ still, (plan.ret still).2.1 = false) ∨
      ∃ it n, plan.act.result old = some it ∧ plan.ret true = (n, true, false) ∧
        Held flagCounter T (some it) ∧
        it.entry.version = Store.nextStored (old.map fun it => it.entry.version) ∧
        view (some it) = some (it.entry.version, Counter.encode n) ∧
        (delta = 0 → ∀ it₀, old = some it₀ → it₀.entry.value = Counter.encode n) := by
  cases old with
  | none =>
    refine Or.inr ⟨_, delta, rfl, rfl, held_some rfl hexp ?_, rfl, counter_plain.view_eq rfl, ?_⟩
    · simp [Slot.Backed, fresh, LruItem.new, Slot.clear]
    · exact fun _ _ h => absurd h (by simp)
  | some it =>
    obtain ⟨hx, ht, hhas⟩ := counter_plain.live hheld hnow
    obtain ⟨-, hlasts, hbacked⟩ := hheld it rfl
    simp only [Store.cIncr, entry, hx, ht, hhas, Bool.false_eq_true, if_false, Bool.not_true]
    cases hcur : Counter.decode it.entry.value with
    | none => exact Or.inl ⟨rfl, fun _ => rfl⟩
    | some cur =>
      dsimp only
      cases hadd : Counter.add cur delta with
      | none => exact Or.inl ⟨rfl, fun _ => rfl⟩
      | some next =>
        refine Or.inr ⟨_, next, rfl, rfl, held_some rfl (hlasts.extend hexp) hbacked, rfl,
          counter_plain.view_eq rfl, ?_⟩
        rintro rfl it₀ heq
        obtain rfl := Option.some.inj heq
        have hsame : next = cur := by
          simpa [Counter.add] using hadd.symm
        rw [hsame, encode_of_decode hcur]

end Increment

section Owner

variable {key : Bytes} {ttl T : ℤ}

namespace Stage

/-- The call's place in the announcing protocol: it has its message as soon as it knows
the version. -/
def phase : Stage → Phase Bytes
  | start | gated _ _ => .idle
  | applied _ _ => .wrote
  | versioned n version _ | observed n version _ => .taken (version, Counter.encode n)
  | finished announced => .done announced

def Ok (T : ℤ) : Stage → Prop
  | gated _ expire | applied _ expire | versioned _ _ expire | observed _ _ expire =>
    Entry.Lasts T expire
  | _ => True

end Stage

structure IncrsRecorded (key : Bytes) (T : ℤ) (init : Option (ℕ × Bytes)) (bound : ℕ) (s : Sys) :
    Prop where
  held : Held flagCounter T (s.ks.store.lookup key)
  inv : Inv init (view (s.ks.store.lookup key)) (s.incrs.map fun p => p.stage.phase)
    (s.sent.map stamp)
  ledger : Ledger s.log (view (s.ks.store.lookup key))
  same : ∀ p ∈ s.incrs, ∀ n expire, p.stage = .applied n expire →
    ∃ version, view (s.ks.store.lookup key) = some (version, Counter.encode n)
  room : versionOf (view (s.ks.store.lookup key)) + s.incrs.countP (fun p => p.stage.phase.isIdle) ≤
    bound
  stages : ∀ p ∈ s.incrs, p.stage.Ok T
  logged : ∀ p ∈ s.incrs, ∀ msg, p.stage.phase = .taken msg → msg ∈ s.log
  sent : ∀ e ∈ s.sent,
    stamp e ∈ s.log ∧ Entry.Lasts T e.expireAt ∧ (Counter.decode e.value).isSome = true

namespace IncrsRecorded

variable {init : Option (ℕ × Bytes)} {bound : ℕ} {s : Sys} {i : ℕ} {p : Incr}

variable {ks : KsRuntime} {now expire n : ℤ}

section

variable (h : IncrsRecorded key T init bound s)
include h

/-- A call moves on to `stage` while nobody can see a change of the counter. -/
theorem quiet (hi : s.incrs[i]? = some p)
    (hks : Held flagCounter T (ks.store.lookup key) ∧
      view (ks.store.lookup key) = view (s.ks.store.lookup key)) {stage : Stage} (hok : stage.Ok T)
    (hstage : ∀ n expire, stage ≠ .applied n expire)
    (hidle : stage.phase.isIdle = true → p.stage.phase.isIdle = true)
    (hsound : stage.phase.Sound (view (s.ks.store.lookup key)))
    (hlogged : ∀ msg, stage.phase = .taken msg → msg ∈ s.log)
    (hpassed : stage.phase.Passed → Moved init (view (s.ks.store.lookup key)))
    (hcovers : ∀ c, view (s.ks.store.lookup key) = some c → p.stage.phase.Covers c →
      c ∈ s.sent.map stamp ∨ stage.phase.Covers c) :
    IncrsRecorded key T init bound ⟨ks, s.incrs.set i { p with stage := stage }, s.sent,
      (view (ks.store.lookup key)).toList ++ s.log⟩ := by
  obtain ⟨hheld, hview⟩ := hks
  have hphase : (s.incrs.map fun p => p.stage.phase)[i]? = some p.stage.phase := by
    rw [List.getElem?_map, hi, Option.map_some]
  have hwrote : stage.phase ≠ .wrote := by
    cases stage with
    | applied n expire => exact absurd rfl (hstage n expire)
    | start | gated | versioned | observed | finished => simp [Stage.phase]
  have hcount : (s.incrs.set i { p with stage := stage }).countP (fun p => p.stage.phase.isIdle) ≤
      s.incrs.countP fun p => p.stage.phase.isIdle := countP_set_le hi hidle
  rw [hview]
  refine ⟨hheld, ?_, ?_, ?_, ?_, ?_, ?_, ?_⟩
  · rw [hview, List.map_set]
    exact h.inv.advance hphase hsound (fun heq => absurd heq hwrote) hpassed
      fun _ => hcovers
  · rw [hview]
    exact h.ledger.keep
  · rw [hview]
    exact forall_mem_set h.same fun n expire heq => absurd heq (hstage n expire)
  · rw [hview]
    exact (Nat.add_le_add_left hcount _).trans h.room
  · exact forall_mem_set h.stages hok
  · refine forall_mem_set (fun q hq msg hmsg => ?_) fun msg hmsg => ?_
    · exact List.mem_append_right _ (h.logged q hq msg hmsg)
    · exact List.mem_append_right _ (hlogged msg hmsg)
  · intro e he
    obtain ⟨hlog, hrest⟩ := h.sent e he
    exact ⟨List.mem_append_right _ hlog, hrest⟩

/-- An increment writes the counter while no other call waits for its version. -/
theorem write (hi : s.incrs[i]? = some p) {it : LruItem}
    (hlook : ks.store.lookup key = some it) (hheld : Held flagCounter T (some it))
    (hversion : it.entry.version = versionOf (view (s.ks.store.lookup key)) + 1)
    (hvalue : view (some it) = some (it.entry.version, Counter.encode n))
    (hothers : ∀ q ∈ s.incrs, ∀ m expire, q.stage = .applied m expire →
      Counter.encode m = Counter.encode n) (hidle : p.stage.phase.isIdle = true)
    (hexp : Entry.Lasts T expire) :
    IncrsRecorded key T init bound ⟨ks, s.incrs.set i { p with stage := .applied n expire }, s.sent,
      (view (ks.store.lookup key)).toList ++ s.log⟩ := by
  have hphase : (s.incrs.map fun p => p.stage.phase)[i]? = some p.stage.phase := by
    rw [List.getElem?_map, hi, Option.map_some]
  have hcount : (s.incrs.set i { p with stage := .applied n expire }).countP
      (fun p => p.stage.phase.isIdle) + 1 = s.incrs.countP fun p => p.stage.phase.isIdle :=
    countP_set_succ hi hidle rfl
  have hview : view (ks.store.lookup key) = some (it.entry.version, Counter.encode n) := by
    rw [hlook, hvalue]
  have hnew := lt_of_version hversion
  rw [hview]
  refine ⟨hlook ▸ hheld, ?_, ?_, ?_, ?_, ?_, ?_, ?_⟩
  · rw [hview, List.map_set]
    exact h.inv.write hphase hnew
  · rw [hview]
    exact h.ledger.write hnew
  · rw [hview]
    refine forall_mem_set (fun q hq m x hstage => ?_) fun m x hstage => ?_
    · exact ⟨it.entry.version, by rw [hothers q hq m x hstage]⟩
    · obtain ⟨rfl, -⟩ := Stage.applied.inj hstage
      exact ⟨it.entry.version, rfl⟩
  · have hroom := h.room
    have hstored : versionOf (view (ks.store.lookup key)) = it.entry.version := by
      rw [hview]
      rfl
    rw [hstored, hversion]
    dsimp only
    omega
  · exact forall_mem_set h.stages hexp
  · refine forall_mem_set (fun q hq msg hmsg => ?_) fun msg hmsg => ?_
    · exact List.mem_append_right _ (h.logged q hq msg hmsg)
    · exact absurd hmsg (by simp [Stage.phase])
  · intro e he
    obtain ⟨hlog, hrest⟩ := h.sent e he
    exact ⟨List.mem_append_right _ hlog, hrest⟩

/-- The section in which the store's increment runs. -/
theorem gated (hbound : bound < 2 ^ 64) (hi : s.incrs[i]? = some p)
    (hnow : now < T) {gate : ℕ} (hstage : p.stage = .gated gate expire)
    (halone : p.delta ≠ 0 → ∀ q ∈ s.incrs, q.stage.waiting = false) (ttl : ℤ) (walk : Walk) :
    let after := incrLocal key ttl now walk p.delta s.ks (.gated gate expire)
    IncrsRecorded key T init bound ⟨after.1, s.incrs.set i { p with stage := after.2 }, s.sent,
      (view (after.1.store.lookup key)).toList ++ s.log⟩ := by
  have hexp : Entry.Lasts T expire := by
    have hok := h.stages p (List.mem_of_getElem? hi)
    rwa [hstage] at hok
  have hidle : p.stage.phase.isIdle = true := by rw [hstage]; rfl
  have heffect := cIncr_effect (s.ks.store.env now) hnow h.held hexp key p.delta gate
  simp only [incrLocal]
  generalize (Store.cIncr key p.delta gate expire : Verb LruItem _) = v at heffect
  have hret := Memory.perform_ret s.ks.store now key v
  have hlook (hheld : Held flagCounter T
    ((v (s.ks.store.env now) (s.ks.store.lookup key)).act.result
      (s.ks.store.lookup key))) :=
    lookup_perform_of_held counter_plain.pinned counter_plain.self hnow hheld
  rcases heffect with ⟨hold, hrefused⟩ | ⟨it, n, hnew, hn, hheld, hversion, hvalue, hzero⟩
  · rw [hold] at hlook
    have hlook := hlook h.held
    have hstop : afterIncr expire (s.ks.store.perform now key v).2 = .finished false := by
      rw [hret]
      simp [afterIncr, hrefused]
    rw [hstop]
    refine h.quiet hi ⟨by rw [hlook]; exact h.held, by rw [hlook]⟩ trivial (by simp)
      (by simp [Stage.phase, Phase.isIdle]) trivial (by simp [Stage.phase]) (fun hp => hp.elim)
      fun _ _ hcov => ?_
    rw [hstage] at hcov
    exact hcov.elim
  · rw [hnew] at hlook
    have hlook := hlook hheld
    have happly : afterIncr expire (s.ks.store.perform now key v).2 = .applied n expire := by
      rw [hret, hlook, Option.isSome_some, hn]
      rfl
    rw [happly]
    have hpos : 0 < s.incrs.countP fun p => p.stage.phase.isIdle :=
      List.countP_pos_iff.mpr ⟨p, List.mem_of_getElem? hi, hidle⟩
    refine h.write hi hlook hheld (hversion.trans (nextStored_of_room h.room hpos hbound)) hvalue ?_
      hidle hexp
    intro q hq m x happlied
    by_cases hdelta : p.delta = 0
    · obtain ⟨version, hsame⟩ := h.same q hq m x happlied
      have hcur := h.held
      cases hit : s.ks.store.lookup key with
      | none => simp [hit, view] at hsame
      | some it₀ =>
        rw [hit] at hsame hcur
        rw [counter_plain.view_eq (hcur it₀ rfl).1] at hsame
        rw [← hzero hdelta it₀ hit]
        exact (congrArg Prod.snd (Option.some.inj hsame)).symm
    · have hwaiting := halone hdelta q hq
      rw [happlied] at hwaiting
      exact absurd hwaiting (by simp [Stage.waiting])

/-- The section that reads the version: the value is still the one the call wrote. -/
theorem versioned (hi : s.incrs[i]? = some p) (hnow : now < T)
    (hstage : p.stage = .applied n expire) :
    let after := s.ks.store.perform now key Store.peekVersion
    IncrsRecorded key T init bound ⟨{ s.ks with store := after.1 },
      s.incrs.set i { p with stage := .versioned n (after.2.getD 0) expire }, s.sent,
      (view (after.1.lookup key)).toList ++ s.log⟩ := by
  intro after
  have hmem := List.mem_of_getElem? hi
  have hexp : Entry.Lasts T expire := by
    have hok := h.stages p hmem
    rwa [hstage] at hok
  obtain ⟨version, hcur⟩ := h.same p hmem n expire hstage
  have hphase : p.stage.phase ∈ s.incrs.map fun p => p.stage.phase := List.mem_map_of_mem hmem
  rw [hstage] at hphase
  have hmoved := h.inv.moved_of_wrote hphase hcur
  have hversion : after.2.getD 0 = version := peekVersion_of_held h.held hnow hcur
  rw [hversion]
  refine h.quiet hi (h.held.looked hnow looking_peekVersion) hexp (by simp)
    (by simp [Stage.phase, Phase.isIdle])
    ⟨_, hcur, le_rfl, fun _ => rfl⟩ ?_ (fun _ => hmoved) fun c hc _ => Or.inr ?_
  · rintro msg hmsg
    obtain rfl := Phase.taken.inj hmsg
    exact h.ledger.current _ hcur
  · exact Option.some.inj (hcur.symm.trans hc)

theorem post {e : Entry}
    (hbehind : Behind (stamp e) (view (s.ks.store.lookup key))) (hlog : stamp e ∈ s.log)
    (hlasts : Entry.Lasts T e.expireAt) (hdecodes : (Counter.decode e.value).isSome = true) :
    IncrsRecorded key T init bound { s with sent := e :: s.sent } where
  held := h.held
  inv := h.inv.post hbehind
  ledger := h.ledger
  same := h.same
  room := h.room
  stages := h.stages
  logged := h.logged
  sent := List.forall_mem_cons.mpr ⟨⟨hlog, hlasts, hdecodes⟩, h.sent⟩

/-- Every section of an increment keeps what holds of the owner. -/
theorem step (hbound : bound < 2 ^ 64) {t : Turn ℕ}
    (hnow : t.now < T) (hexp : Entry.Lasts T (expireAt t.now ttl)) (halone : Alone s t) :
    IncrsRecorded key T init bound (CounterReplication.step key ttl s t) := by
  unfold CounterReplication.step
  split
  · exact h
  next p hi =>
    have hmem := List.mem_of_getElem? hi
    have hphase : p.stage.phase ∈ s.incrs.map fun p => p.stage.phase := List.mem_map_of_mem hmem
    have hok := h.stages p hmem
    have hlogged := h.logged p hmem
    cases hstage : p.stage with
    | start =>
      refine h.quiet hi (h.held.looked hnow looking_peekVersion) hexp (by simp)
        (by simp [hstage, Stage.phase, Phase.isIdle]) trivial (by simp [Stage.phase])
        (fun hp => hp.elim)
        fun _ _ hcov => ?_
      rw [hstage] at hcov
      exact hcov.elim
    | gated gate expire =>
      exact h.gated hbound hi hnow hstage (halone p hi (by rw [hstage]; rfl)) ttl t.walk
    | applied n expire => exact h.versioned hi hnow hstage
    | versioned n version expire =>
      rw [hstage] at hphase hok hlogged
      refine h.quiet hi ?_ hok (by simp) (by simp [Stage.phase, Phase.isIdle])
        (h.inv.sound _ hphase) hlogged
        (fun _ => h.inv.passed _ hphase trivial) fun _ _ hcov => ?_
      · exact (tidy_held hnow _).observeVersion t.walk key version s.ks ⟨h.held, rfl⟩
      · rw [hstage] at hcov
        exact Or.inr hcov
    | observed n version expire =>
      rw [hstage] at hphase hok hlogged
      refine (h.post (e := snapshotOf n version expire) (h.inv.sound _ hphase) (hlogged _ rfl) hok
        (Counter.isSome_decode_encode n)).quiet hi ⟨h.held, rfl⟩ trivial (by simp)
        (by simp [Stage.phase, Phase.isIdle])
        trivial (by simp [Stage.phase]) (fun _ => h.inv.passed _ hphase trivial) fun c _ hcov => ?_
      rw [hstage] at hcov
      exact Or.inl (List.mem_cons.mpr (Or.inl hcov.symm))
    | finished announced =>
      rw [hstage] at hphase
      refine h.quiet hi ⟨h.held, rfl⟩ trivial (by simp)
        (by simp [Stage.phase, Phase.isIdle]) trivial
        (by simp [Stage.phase]) (fun hp => h.inv.passed _ hphase hp) fun _ _ hcov => ?_
      rw [hstage] at hcov
      exact hcov.elim

end

theorem start {deltas : List ℤ} (hheld : Held flagCounter T (ks.store.lookup key)) :
    IncrsRecorded key T (view (ks.store.lookup key))
    (versionOf (view (ks.store.lookup key)) + deltas.length)
      (begin_ key ks deltas) where
  held := hheld
  inv := by
    refine Inv.start _ fun q hq => ?_
    obtain ⟨p, hp, rfl⟩ := List.mem_map.mp hq
    obtain ⟨delta, -, rfl⟩ := List.mem_map.mp hp
    rfl
  ledger := Ledger.start _
  same p hp n expire hstage := by
    obtain ⟨delta, -, rfl⟩ := List.mem_map.mp hp
    exact absurd hstage (by simp)
  room := by
    refine Nat.add_le_add_left (List.countP_le_length.trans ?_) _
    simp [begin_]
  stages p hp := by
    obtain ⟨delta, -, rfl⟩ := List.mem_map.mp hp
    trivial
  logged p hp msg hmsg := by
    obtain ⟨delta, -, rfl⟩ := List.mem_map.mp hp
    exact absurd hmsg (by simp [Stage.phase])
  sent := by simp [begin_]

end IncrsRecorded

end Owner

section Convergence

variable {key : Bytes} {ttl T : ℤ}

/-- In every run in which no increment changes the value while another call waits for its
version: each pair sent is a state the counter was in, and the only one of its version; and
once all calls are done, a replica that started with the owner's counter, or with an earlier
one if some increment was applied, ends with the owner's value and version, whatever the
order and number of deliveries. -/
theorem counter_converges {owner : KsRuntime} {deltas : List ℤ} {turns : List (Turn ℕ)}
    (howner : Held flagCounter T (owner.store.lookup key))
    (hroom : versionOf (view (owner.store.lookup key)) + deltas.length < 2 ^ 64)
    (hturns : ∀ t ∈ turns, t.now < T ∧ Entry.Lasts T (expireAt t.now ttl))
    (halone : Along (step key ttl) Alone (begin_ key owner deltas) turns) :
    let s := run key ttl (begin_ key owner deltas) turns
    (∀ e ∈ s.sent, stamp e ∈ s.log ∧ ∀ c ∈ s.log, c.1 = e.version → c.2 = e.value) ∧
      ∀ (replica : KsRuntime) (arrivals : List Arrival) (now : ℤ),
        (∀ p ∈ s.incrs, ∃ b, p.stage = .finished b) →
        Held flagCounter T (replica.store.lookup key) →
        (view (replica.store.lookup key) = view (owner.store.lookup key) ∨
          (∀ w, view (replica.store.lookup key) = some w →
            ∃ w₀, view (owner.store.lookup key) = some w₀ ∧ w.1 ≤ w₀.1) ∧
          content s.ks.store now key ≠ content owner.store now key) →
        (∀ a ∈ arrivals, a.now < T ∧ Entry.Lasts T (expireAt a.now ttl)) →
        (∀ ent, ent ∈ arrivals.map Arrival.ent ↔ ent ∈ s.sent) → now < T →
        content (replicaRun counterReceiver key ttl replica arrivals).store now key =
          content s.ks.store now key := by
  intro s
  have hrecorded : IncrsRecorded key T (view (owner.store.lookup key))
      (versionOf (view (owner.store.lookup key)) + deltas.length) s := by
    refine Along.invariant (P := fun s t => (t.now < T ∧ Entry.Lasts T (expireAt t.now ttl)) ∧
      Alone s t)
      (fun s t hs ht => hs.step hroom ht.1.1 ht.1.2 ht.2) (IncrsRecorded.start howner) ?_
    exact halone.and_forall hturns
  refine ⟨fun e he => ?_, ?_⟩
  · have hlog := (hrecorded.sent e he).1
    refine ⟨hlog, fun c hc heq => ?_⟩
    exact congrArg Prod.snd (hrecorded.ledger.unique c hc (stamp e) hlog heq)
  intro replica arrivals now hall hreplica hstart harrivals hsame hnow
  have hin : ∀ a ∈ arrivals, a.ent ∈ s.sent := fun a ha =>
    (hsame a.ent).mp (List.mem_map_of_mem ha)
  obtain ⟨hheld, hview⟩ := replicaRun_view counterReceiver hreplica fun a ha =>
    ⟨(harrivals a ha).1, (harrivals a ha).2, (hrecorded.sent _ (hin a ha)).2⟩
  have hmsgs := mem_map_stamp hsame
  rw [content_of_held hheld hnow, content_of_held hrecorded.held hnow, hview]
  by_cases hchanged : view (s.ks.store.lookup key) = view (owner.store.lookup key)
  · rcases hstart with hagree | ⟨-, hne⟩
    · rw [hagree, ← hchanged]
      exact foldl_latest_of_behind fun msg hmsg => hrecorded.inv.behind msg ((hmsgs msg).mp hmsg)
    · rw [content_of_held hrecorded.held hnow, content_of_held howner hnow] at hne
      exact absurd hchanged hne
  · have hdone : ∀ q ∈ s.incrs.map fun p => p.stage.phase, ∃ b, q = .done b :=
      List.forall_mem_map.mpr fun p hp => (hall p hp).imp fun b hb => by rw [hb]; rfl
    obtain ⟨c, hc, hmem, hlt, hle⟩ := hrecorded.inv.final hdone hchanged
    rw [hc]
    refine newest_of_final hmem hle (fun w hw => ?_) hmsgs
    rcases hstart with hagree | ⟨hearlier, -⟩
    · exact hlt w (hagree ▸ hw)
    · obtain ⟨w₀, hw₀, hwle⟩ := hearlier w hw
      exact hwle.trans_lt (hlt w₀ hw₀)

theorem held_emptyKeySpace : Held flagCounter 5 (emptyKeySpace.store.lookup [0]) := Held.none _ _

def apart : List (Turn ℕ) := turnsOf [0, 0, 0, 1, 1, 1, 1, 1, 0, 0]

def apartSent : List Entry := [snapshotOf 1 1 0, snapshotOf 3 2 0]

/-- The snapshots leave in the wrong order, and still the replica has the final value. -/
theorem counter_converges_apart :
    (run [0] 0 (begin_ [0] emptyKeySpace [1, 2]) apart).sent = apartSent ∧
      content (replicaRun counterReceiver [0] 0 emptyKeySpace
        (apartSent.reverse.map fun ent => ⟨2, ⟨[], []⟩, ent⟩)).store 3 [0] =
        content (run [0] 0 (begin_ [0] emptyKeySpace [1, 2]) apart).ks.store 3 [0] := by
  have hsent : (run [0] 0 (begin_ [0] emptyKeySpace [1, 2]) apart).sent = apartSent := by
    decide +kernel
  have hstages : (run [0] 0 (begin_ [0] emptyKeySpace [1, 2]) apart).incrs.map (fun p => p.stage) =
      [.finished true, .finished true] := by decide +kernel
  have hturns : ∀ t ∈ apart, t.now < 5 ∧ Entry.Lasts 5 (expireAt t.now 0) := by
    intro t ht
    obtain ⟨who, -, rfl⟩ := List.mem_map.mp ht
    exact ⟨show (1 : ℤ) < 5 by decide, Or.inl rfl⟩
  refine ⟨hsent, (counter_converges held_emptyKeySpace (by decide +kernel) hturns
    (by decide +kernel)).2 emptyKeySpace _ 3 ?_ held_emptyKeySpace (Or.inl rfl) ?_ ?_ (by decide)⟩
  · intro p hp
    have hmem := List.mem_map_of_mem (f := fun p => p.stage) hp
    rw [hstages] at hmem
    exact ⟨true, by simpa using hmem⟩
  · intro a ha
    obtain ⟨ent, -, rfl⟩ := List.mem_map.mp ha
    exact ⟨show (2 : ℤ) < 5 by decide, Or.inl rfl⟩
  · intro ent
    rw [hsent, List.map_map]
    simp

def together : List (Turn ℕ) := turnsOf [0, 0, 1, 1, 0, 1, 0, 1, 0, 1]

/-- Both snapshots carry the second version, one of them with the first value, and the
replica keeps the one that comes first. -/
theorem counter_diverges_together :
    (run [0] 0 (begin_ [0] emptyKeySpace [1, 1]) together).sent =
        [snapshotOf 2 2 0, snapshotOf 1 2 0] ∧
      content (run [0] 0 (begin_ [0] emptyKeySpace [1, 1]) together).ks.store 3 [0] =
        some (2, Counter.encode 2) ∧
      content (replicaRun counterReceiver [0] 0 emptyKeySpace
        [⟨2, ⟨[], []⟩, snapshotOf 1 2 0⟩, ⟨2, ⟨[], []⟩, snapshotOf 2 2 0⟩]).store 3 [0] =
        some (2, Counter.encode 1) := by
  refine ⟨?_, ?_, ?_⟩ <;> decide +kernel

end Convergence

end Supercache.CounterReplication
