import Supercache.OwnerCalls
import Supercache.ReadYourWrites

/-!
The calls of a load-through keyspace as a whole, on the node that answers for
the key: a read, a forced load, and the answer to another node. A call that
finds nothing asks the data source, and stores what it says. A store that
misses has nothing or a tombstone under the key.
-/
namespace Supercache

open Wire Lru

inductive Failure where
  | invalidArgument
  | keyTooLarge
  | valueTooLarge
  | notFound
  | unavailable
  | source
deriving DecidableEq

/-- What the calls read of the settings: first the engine's, then the keyspace's. -/
structure Config where
  engineMaxKeyLen : ℤ
  engineMaxValueSize : ℤ
  ttl : ℤ
  negativeTTL : ℤ
  /-- The engine's limit applies when zero or less. -/
  maxKeyLen : ℤ
  /-- The engine's limit applies when zero or less. -/
  maxValueSize : ℤ
  replicationFactor : ℤ

namespace Config

variable (cfg : Config)

def validateKey (key : Bytes) : Except Failure Unit :=
  if key = [] then .error .invalidArgument
  else if cfg.engineMaxKeyLen < key.length then .error .keyTooLarge
  else .ok ()

def validateKeyLen (key : Bytes) : Except Failure Unit :=
  let max := if 0 < cfg.maxKeyLen then cfg.maxKeyLen else cfg.engineMaxKeyLen
  if max < key.length then .error .keyTooLarge else .ok ()

def checkKey (key : Bytes) : Except Failure Unit := do
  cfg.validateKey key
  cfg.validateKeyLen key

def validateValueSize (value : Bytes) : Except Failure Unit :=
  let max := if 0 < cfg.maxValueSize then cfg.maxValueSize else cfg.engineMaxValueSize
  if max < value.length then .error .valueTooLarge else .ok ()

end Config

def KsRuntime.get (ks : KsRuntime) (now : ℤ) (key : Bytes) : KsRuntime × Option Entry :=
  let (store, cur) := ks.store.perform now key (Store.get key)
  ({ ks with store := store }, cur)

def KsRuntime.peek (ks : KsRuntime) (now : ℤ) (key : Bytes) : KsRuntime × Option Entry :=
  let (store, cur) := ks.store.perform now key (Store.peek key)
  ({ ks with store := store }, cur)

namespace LoadCalls

inductive Load where
  | refused
  | value (v : Bytes)
  | notFound
  | failed

def Load.called : Load → Bool
  | .refused => false
  | _ => true

structure Pace where
  look : ℤ
  mint : ℤ
  apply : ℤ
  again : ℤ
  walk : Walk

/-- The clock does not go back. -/
def Pace.Ordered (p : Pace) : Prop := p.look ≤ p.mint ∧ p.mint ≤ p.apply ∧ p.apply ≤ p.again

def positive (cur : Option Entry) : Option Entry := cur.filter fun ent => !ent.isNegative

section Owner

variable (cfg : Config) (key : Bytes) (p : Pace)

def negativeEntry (ks : KsRuntime) : KsRuntime × Entry :=
  let (ks, version) := ks.nextVersion p.mint p.walk key 0
  (ks, ⟨[], version, expireAt p.mint cfg.negativeTTL, flagNegative⟩)

def storeNegative (ks : KsRuntime) : KsRuntime :=
  if cfg.negativeTTL ≤ 0 then ks
  else
    let (ks, cur) := ks.peek p.look key
    match positive cur with
    | some _ => ks
    | none =>
      let (ks, ent) := negativeEntry cfg key p ks
      let (store, _) := ks.store.perform p.apply key (Store.acceptNegative key ent)
      { ks with store := store }

def fillEntry (val : Bytes) (ks : KsRuntime) : KsRuntime × Entry :=
  let (ks, version) := ks.nextVersion p.mint p.walk key 0
  (ks, ⟨val, version, expireAt p.mint cfg.ttl, 0⟩)

/-- Writes what a load returned. If that is refused, a live value is returned in its place. -/
def writeFill (val : Bytes) (ks : KsRuntime) (ent : Entry) : KsRuntime × Bytes :=
  let (store, ok) := ks.store.perform p.apply key (Store.acceptIfNewer key ent)
  let ks := { ks with store := store }
  if ok then (ks, val)
  else
    let (ks, cur) := ks.get p.again key
    match positive cur with
    | some cur => (ks, cur.value)
    | none => (ks, val)

def fill (val : Bytes) (ks : KsRuntime) : KsRuntime × Bytes :=
  let (ks, cur) := ks.get p.look key
  match positive cur with
  | some ent => (ks, ent.value)
  | none =>
    let (ks, ent) := fillEntry cfg key p val ks
    writeFill key p val ks ent

def loadThrough (load : Load) (ks : KsRuntime) : KsRuntime × Except Failure Bytes :=
  match load with
  | .refused => (ks, .error .unavailable)
  | .failed => (ks, .error .source)
  | .notFound =>
    let (ks, cur) := (storeNegative cfg key p ks).get p.again key
    match positive cur with
    | some ent => (ks, .ok ent.value)
    | none => (ks, .error .notFound)
  | .value val =>
    match cfg.validateValueSize val with
    | .error err => (ks, .error err)
    | .ok () =>
      let (ks, val) := fill cfg key p val ks
      (ks, .ok val)

end Owner

structure Times where
  first : ℤ
  flight : ℤ
  load : Pace

def Times.Ordered (t : Times) : Prop :=
  t.first ≤ t.flight ∧ t.flight ≤ t.load.look ∧ t.load.Ordered

structure Reply where
  ks : KsRuntime
  result : Except Failure Bytes
  called : Bool

def answer (ent : Entry) : Except Failure Bytes :=
  if ent.isNegative then .error .notFound else .ok ent.value

def get (cfg : Config) (key : Bytes) (load : Load) (t : Times) (ks : KsRuntime) : Reply :=
  match cfg.checkKey key with
  | .error err => ⟨ks, .error err, false⟩
  | .ok () =>
    let (ks, cur) := ks.get t.first key
    match cur with
    | some ent => ⟨ks, answer ent, false⟩
    | none =>
      let (ks, cur) := ks.get t.flight key
      match cur with
      | some ent => ⟨ks, answer ent, false⟩
      | none =>
        let (ks, result) := loadThrough cfg key t.load load ks
        ⟨ks, result, load.called⟩

def forceLoad (cfg : Config) (owns : Bool) (key : Bytes) (load : Load) (p : Pace)
    (ks : KsRuntime) : KsRuntime × Except Failure Unit :=
  match cfg.checkKey key with
  | .error err => (ks, .error err)
  | .ok () =>
    if !owns then (ks, .ok ())
    else
      let (ks, result) := loadThrough cfg key p load ks
      (ks, result.map fun _ => ())

def negative (cur : Option Entry) : Option Entry := cur.filter Entry.isNegative

/-- `GetOrLoadLocal`: the entry and the error with which the owner answers another node. After the
load it looks once or twice more. A value that was loaded and is not in the store is answered with
an entry made up for it. -/
def getOrLoadLocal (cfg : Config) (key : Bytes) (load : Load) (t : Times) (reload last : ℤ)
    (ks : KsRuntime) : KsRuntime × Entry × Option Failure :=
  match cfg.checkKey key with
  | .error err => (ks, ⟨[], 0, 0, 0⟩, some err)
  | .ok () =>
    let (ks, cur) := ks.get t.first key
    match cur with
    | some ent => (ks, ent, if ent.isNegative then some .notFound else none)
    | none =>
      let (ks, cur) := ks.get t.flight key
      match cur with
      | some ent => (ks, ent, if ent.isNegative then some .notFound else none)
      | none =>
        match loadThrough cfg key t.load load ks with
        | (ks, .ok val) =>
          let (ks, cur) := ks.get reload key
          match positive cur with
          | some ent => (ks, ent, none)
          | none => (ks, ⟨val, 0, 0, 0⟩, none)
        | (ks, .error .notFound) =>
          let (ks, cur) := ks.get reload key
          match negative cur with
          | some ent => (ks, ent, some .notFound)
          | none =>
            let (ks, cur) := ks.get last key
            match negative cur with
            | some ent => (ks, ent, some .notFound)
            | none => (ks, ⟨[], 0, 0, 0⟩, some .notFound)
        | (ks, .error err) => (ks, ⟨[], 0, 0, 0⟩, some err)

def RoomFor (ks : KsRuntime) (apply : ℤ) (key : Bytes) (w : KsRuntime × Entry) : Prop :=
  Store.tooBig (ks.store.env apply) (entryCost key w.2) = false ∧ Room w.1.store apply key w.2

theorem any_eq_isSome_positive (cur : Option Entry) :
    (cur.any fun ent => !ent.isNegative) = (positive cur).isSome := by
  cases cur with
  | none => rfl
  | some ent => cases hn : ent.isNegative <;> simp [positive, Option.filter, hn]

theorem positive_eq_some {cur : Option Entry} {ent : Entry} :
    positive cur = some ent ↔ cur = some ent ∧ ent.isNegative = false := by
  simp [positive, Option.filter_eq_some_iff]

section Sections

variable (cfg : Config) (key : Bytes) (p : Pace) (ks : KsRuntime)

theorem sections_writeFill (val : Bytes) (ent : Entry) : ([p.apply, p.again].foldl
      (fun s now => Owner.loadThrough key val cfg.ttl now p.walk s.1 s.2) (ks, .minted ent)).1 =
      (writeFill key p val ks ent).1 := by
  rw [List.foldl_cons, Owner.loadThrough, writeFill]
  rcases ks.store.perform p.apply key (Store.acceptIfNewer key ent) with ⟨store, ok⟩
  cases ok with
  | true => rfl
  | false =>
    simp only [Bool.false_eq_true, if_false]
    split <;> rfl

/-- The sections of a fill one after another, undisturbed, come to the whole call. -/
theorem sections_loadThrough (val : Bytes) : ([p.look, p.mint, p.apply, p.again].foldl
      (fun s now => Owner.loadThrough key val cfg.ttl now p.walk s.1 s.2) (ks, .start)).1 =
      (fill cfg key p val ks).1 := by
  rw [List.foldl_cons, Owner.loadThrough, fill, KsRuntime.get]
  rcases ks.store.perform p.look key (Store.get key) with ⟨store, cur⟩
  simp only [any_eq_isSome_positive]
  cases hcur : positive cur with
  | some ent => simp [Owner.loadThrough]
  | none =>
    simp only [Option.isSome_none, Bool.false_eq_true, if_false]
    exact sections_writeFill cfg key p _ val _

theorem sections_storeNegative : ([p.look, p.mint, p.apply].foldl
      (fun s now => Owner.storeNegative key cfg.negativeTTL now p.walk s.1 s.2) (ks, .start)).1 =
      storeNegative cfg key p ks := by
  rw [List.foldl_cons, Owner.storeNegative, storeNegative]
  split
  · rfl
  · rw [KsRuntime.peek]
    rcases ks.store.perform p.look key (Store.peek key) with ⟨store, cur⟩
    simp only [any_eq_isSome_positive]
    cases hcur : positive cur with
    | some ent => simp [Owner.storeNegative]
    | none => simp [Owner.storeNegative, negativeEntry]

end Sections

def Missing (old : Option LruItem) : Prop := ∀ it, old = some it → it.entry.isTombstone = true

def Lacking (old : Option LruItem) : Prop :=
  ∀ it, old = some it → it.entry.isTombstone = true ∨ it.entry.isNegative = true

/-- The entry, with nothing held back. -/
def Holds (e : Entry) (old : Option LruItem) : Prop :=
  ∃ it, old = some it ∧ it.entry = e ∧ it.flush = (it, false)

theorem Missing.lacking {old : Option LruItem} (h : Missing old) : Lacking old :=
  fun it hit => Or.inl (h it hit)

theorem holds_new (e : Entry) : Holds e (some (LruItem.new e)) := ⟨_, rfl, rfl, rfl⟩

theorem holds_flush (it : LruItem) : Holds it.flush.1.entry (some it.flush.1) :=
  ⟨_, rfl, rfl, it.flush_flush⟩

section Kept

variable (now : ℤ)

theorem tidy_missing : Tidy now Missing :=
  tidy_of_entry now (P := fun e => e.isTombstone = true) fun _ _ h => h

theorem tidy_lacking : Tidy now Lacking :=
  tidy_of_entry now (P := fun e => e.isTombstone = true ∨ e.isNegative = true) fun _ _ h => h

theorem tidy_holds {now : ℤ} {e : Entry} (hx : e.expired now = false) : Tidy now (Holds e) where
  flush := by
    rintro it ⟨_, heq, hentry, hflush⟩
    cases heq
    rw [hflush]
    exact ⟨it, rfl, hentry, hflush⟩
  expire := by
    rintro it hexp ⟨_, heq, hentry, -⟩
    cases heq
    rw [hentry, hx] at hexp
    cases hexp

end Kept

section Looks

variable (ks : KsRuntime) (now : ℤ) (key k : Bytes)

theorem looks_get : Looks now (ks.store.lookup k) ((ks.get now key).1.store.lookup k) :=
  (looking_get key).lookup ks.store now key k

theorem looks_peek : Looks now (ks.store.lookup k) ((ks.peek now key).1.store.lookup k) :=
  (looking_peek key).lookup ks.store now key k

/-- A read finds an unexpired entry that is not a tombstone, or there is none. -/
theorem get_spec : ((ks.get now key).2 = none ∧ Missing ((ks.get now key).1.store.lookup key)) ∨
      ∃ e, (ks.get now key).2 = some e ∧ e.expired now = false ∧ e.isTombstone = false ∧
        Holds e ((ks.get now key).1.store.lookup key) := by
  have hlook : (ks.get now key).1.store.lookup key =
      (Store.get key (ks.store.env now) (ks.store.lookup key)).act.result
        (ks.store.lookup key) := by
    refine (ks.store.lookup_perform_of_not_evicts (looking_get key _ _).1 key).trans ?_
    simp [Memory.expected]
  have hret : (ks.get now key).2 = (Store.get key (ks.store.env now) (ks.store.lookup key)).ret
      ((ks.get now key).1.store.lookup key).isSome := ks.store.perform_ret now key (Store.get key)
  rw [hlook] at hret ⊢
  rw [hret]
  cases hold : ks.store.lookup key with
  | none => exact Or.inl ⟨rfl, fun it hit => absurd hit (by simp [Store.get, Act.result])⟩
  | some it =>
    cases hx : it.entry.expired now with
    | true =>
      rw [Store.get_of_expired (ks.store.env now) it key hx]
      exact Or.inl ⟨rfl, fun it' hit => absurd hit (by simp [Act.result])⟩
    | false =>
      cases ht : it.entry.isTombstone with
      | true =>
        rw [Store.get_of_tombstone (ks.store.env now) it key hx ht]
        refine Or.inl ⟨rfl, fun it' hit => ?_⟩
        simp only [Act.result, Option.some.injEq] at hit
        rw [← hit]
        exact ht
      | false =>
        rw [Store.get_of_live (ks.store.env now) it key hx ht]
        obtain ⟨blob, hblob⟩ := it.entry_flush
        refine Or.inr ⟨it.flush.1.entry, rfl, by rw [hblob]; exact hx, by rw [hblob]; exact ht, ?_⟩
        simp only [Store.result_touch]
        exact holds_flush it

end Looks

section Reads

variable {ks : KsRuntime} {now : ℤ} {key : Bytes}

theorem missing_of_get (h : (ks.get now key).2 = none) :
    Missing ((ks.get now key).1.store.lookup key) := by
  rcases get_spec ks now key with ⟨-, hmiss⟩ | ⟨e, hsome, -⟩
  · exact hmiss
  · rw [h] at hsome
    cases hsome

/-- The keyspace when a read that missed has looked again. -/
theorem missing_flight (h : (ks.get now key).2 = none) (flight : ℤ) :
    Missing (((ks.get now key).1.get flight key).1.store.lookup key) :=
  (tidy_missing flight).looks (looks_get _ flight key key) (missing_of_get h)

theorem holds_of_get {e : Entry} (h : (ks.get now key).2 = some e) :
    e.expired now = false ∧ e.isTombstone = false ∧
      Holds e ((ks.get now key).1.store.lookup key) := by
  rcases get_spec ks now key with ⟨hnone, -⟩ | ⟨e', hsome, hrest⟩
  · rw [h] at hnone
    cases hnone
  · rw [h] at hsome
    cases hsome
    exact hrest

theorem get_of_lacking (h : Lacking (ks.store.lookup key)) :
    positive (ks.get now key).2 = none := by
  rcases get_spec ks now key with ⟨hnone, -⟩ | ⟨e, hsome, -, ht, it, hit, hentry, -⟩
  · rw [hnone]
    rfl
  · rcases (tidy_lacking now).looks (looks_get ks now key key) h it hit with htomb | hneg
    · rw [hentry, ht] at htomb
      cases htomb
    · rw [hentry] at hneg
      simp [hsome, positive, hneg]

theorem get_of_missing (h : Missing (ks.store.lookup key)) : (ks.get now key).2 = none := by
  rcases get_spec ks now key with ⟨hnone, -⟩ | ⟨e, -, -, ht, it, hit, hentry, -⟩
  · exact hnone
  · have htomb := (tidy_missing now).looks (looks_get ks now key key) h it hit
    rw [hentry, ht] at htomb
    cases htomb

theorem get_of_holds {e : Entry} (h : Holds e (ks.store.lookup key)) (ht : e.isTombstone = false) :
    (ks.get now key).2 = if e.expired now then none else some e := by
  obtain ⟨it, hit, rfl, hflush⟩ := h
  have hret : (ks.get now key).2 = (Store.get key (ks.store.env now) (ks.store.lookup key)).ret
      ((ks.get now key).1.store.lookup key).isSome := ks.store.perform_ret now key (Store.get key)
  rw [hret, hit]
  cases hx : it.entry.expired now with
  | true =>
    rw [Store.get_of_expired (ks.store.env now) it key hx]
    rfl
  | false =>
    rw [Store.get_of_live (ks.store.env now) it key hx ht]
    have hsame : Stored.flush it = (it, false) := hflush
    simp [hsame, Stored.entry]

end Reads

section Calls

variable {cfg : Config} {key : Bytes} {load : Load} {t : Times} {ks : KsRuntime}
  (hkey : cfg.checkKey key = .ok ())
include hkey

theorem get_hit {e : Entry} (h : (ks.get t.first key).2 = some e) :
    get cfg key load t ks = ⟨(ks.get t.first key).1, answer e, false⟩ := by
  unfold get
  simp only [hkey, h]

/-- A read that misses misses again in the flight. -/
theorem get_miss (h : (ks.get t.first key).2 = none) : get cfg key load t ks =
      ⟨(loadThrough cfg key t.load load ((ks.get t.first key).1.get t.flight key).1).1,
        (loadThrough cfg key t.load load ((ks.get t.first key).1.get t.flight key).1).2,
        load.called⟩ := by
  unfold get
  simp only [hkey, h, get_of_missing (missing_of_get h)]

/-- Without the data source a read returns what is cached. -/
theorem get_failed {v : Bytes} (h : (get cfg key .failed t ks).result = .ok v) :
    ∃ e, positive (ks.get t.first key).2 = some e ∧ e.value = v := by
  cases hcur : (ks.get t.first key).2 with
  | none =>
    rw [get_miss hkey hcur] at h
    cases h
  | some e =>
    rw [get_hit hkey hcur, answer] at h
    cases hn : e.isNegative with
    | true => simp [hn] at h
    | false =>
      simp only [hn, Bool.false_eq_true, if_false, Except.ok.injEq] at h
      exact ⟨e, positive_eq_some.mpr ⟨rfl, hn⟩, h⟩

end Calls

section Writes

variable {key : Bytes} {p : Pace} {val : Bytes} {ks : KsRuntime} {ent : Entry}

theorem lacking_acceptNegative {m : Mem} {now : ℤ} (hneg : ent.isNegative = true)
    (h : Lacking (m.lookup key)) :
    Lacking ((m.perform now key (Store.acceptNegative key ent)).1.lookup key) := by
  intro it hit
  rcases m.lookup_perform now key (Store.acceptNegative key ent) key with heq | ⟨hnone, -⟩
  · have hit' := heq.symm.trans hit
    simp only [Memory.expected, if_true] at hit'
    rcases Store.acceptNegative_result (m.env now) key ent (m.lookup key) with
      hsame | ⟨new, hnew, hentry⟩
    · exact h it (hsame.symm.trans hit')
    · cases hnew.symm.trans hit'
      have hentry' : it.entry = ent := hentry
      rw [hentry']
      exact Or.inr hneg
  · cases hnone.symm.trans hit

/-- A load that found nothing leaves nothing live where there was nothing live. -/
theorem lacking_storeNegative {cfg : Config} (h : Lacking (ks.store.lookup key)) :
    Lacking ((storeNegative cfg key p ks).store.lookup key) := by
  have hpeek := (tidy_lacking p.look).looks (looks_peek ks p.look key key) h
  have hflag : (flagNegative &&& flagNegative != 0) = true := by decide
  unfold storeNegative
  split
  · exact h
  · simp only
    split
    · exact hpeek
    · exact lacking_acceptNegative hflag
        ((tidy_lacking p.mint).nextVersion p.walk key 0 _ hpeek)

/-- A fill that is turned away leaves nothing live where there was nothing live. -/
theorem writeFill_of_keep
    (hkeep : (Store.acceptIfNewer key ent (ks.store.env p.apply) (ks.store.lookup key)).act = .keep)
    (hret : ∀ still, (Store.acceptIfNewer key ent (ks.store.env p.apply)
      (ks.store.lookup key)).ret still = false) (hlack : Lacking (ks.store.lookup key)) :
    Lacking ((writeFill key p val ks ent).1.store.lookup key) := by
  have hfalse : (ks.store.perform p.apply key (Store.acceptIfNewer key ent)).2 = false := hret _
  have hsame : (ks.store.perform p.apply key (Store.acceptIfNewer key ent)).1.lookup key =
      ks.store.lookup key := by
    rw [ks.store.lookup_perform_of_not_evicts (by rw [hkeep]; rfl)]
    simp [Memory.expected, hkeep, Act.result]
  rw [← hsame] at hlack
  simp only [writeFill, hfalse, Bool.false_eq_true, if_false]
  split
  · exact (tidy_lacking p.again).looks (looks_get _ p.again key key) hlack
  · exact (tidy_lacking p.again).looks (looks_get _ p.again key key) hlack

theorem writeFill_refused (h : Outdated ks.store p.apply key ent)
    (hlack : Lacking (ks.store.lookup key)) :
    Lacking ((writeFill key p val ks ent).1.store.lookup key) := by
  obtain ⟨it, hit, hx, hle⟩ := h
  have hplan := Store.acceptIfNewer_of_le (ks.store.env p.apply) it key hx hle
  exact writeFill_of_keep (by rw [hit, hplan]; rfl) (by rw [hit, hplan]; exact fun _ => rfl) hlack

section

variable (hnew : ¬ Outdated ks.store p.apply key ent)
  (hfits : Store.tooBig (ks.store.env p.apply) (entryCost key ent) = false)
include hnew hfits

/-- A fill that is neither refused nor too large is written. -/
theorem acceptIfNewer_fits :
    Store.acceptIfNewer key ent (ks.store.env p.apply) (ks.store.lookup key) =
      ⟨Store.replace (ks.store.lookup key) (entryCost key ent) (fresh ent), .quiet,
        fun _ => true⟩ := by
  rw [acceptIfNewer_of_not_outdated hnew, Store.set, hfits]
  rfl

/-- A fill that is not refused and has room is stored. -/
theorem writeFill_stored (hroom : Room ks.store p.apply key ent) :
    (writeFill key p val ks ent).1.store.lookup key = some (LruItem.new ent) ∧
      (writeFill key p val ks ent).2 = val := by
  have hplan := acceptIfNewer_fits hnew hfits
  have htrue : (ks.store.perform p.apply key (Store.acceptIfNewer key ent)).2 = true := by
    rw [Memory.perform_ret, hplan]
  simp only [writeFill, htrue, if_true, and_true]
  exact (lookup_write_iff (by rw [hplan])).mpr hroom

end

/-- A fill that is refused, too large or without room leaves nothing live where there was nothing
live. -/
theorem writeFill_lost (hlack : Lacking (ks.store.lookup key))
    (hnot : ¬ (¬ Outdated ks.store p.apply key ent ∧
      Store.tooBig (ks.store.env p.apply) (entryCost key ent) = false ∧
      Room ks.store p.apply key ent)) :
    Lacking ((writeFill key p val ks ent).1.store.lookup key) := by
  by_cases hstale : Outdated ks.store p.apply key ent
  · exact writeFill_refused hstale hlack
  cases hfits : Store.tooBig (ks.store.env p.apply) (entryCost key ent) with
  | true =>
    have hplan : Store.acceptIfNewer key ent (ks.store.env p.apply) (ks.store.lookup key) =
        .skip false := by
      rw [acceptIfNewer_of_not_outdated hstale, Store.set, hfits]
      rfl
    exact writeFill_of_keep (by rw [hplan]; rfl) (by rw [hplan]; exact fun _ => rfl) hlack
  | false =>
    have hplan := acceptIfNewer_fits hstale hfits
    have htrue : (ks.store.perform p.apply key (Store.acceptIfNewer key ent)).2 = true := by
      rw [Memory.perform_ret, hplan]
    have hroom : ¬ Room ks.store p.apply key ent := fun h => hnot ⟨hstale, hfits, h⟩
    simp only [writeFill, htrue, if_true]
    rw [lookup_write (by rw [hplan]) hroom]
    exact fun it hit => absurd hit (by simp)

end Writes

def Has (R : Entry → Prop) (old : Option LruItem) : Prop := ∃ it, old = some it ∧ R it.entry

/-- A condition on flags, version and expiry that no entry meets that has expired by the time. -/
structure Timely (later : ℤ) (R : Entry → Prop) : Prop where
  value : ∀ e blob, R { e with value := blob } ↔ R e
  unexpired : ∀ e, R e → e.expired later = false

theorem timely_unexpired (later : ℤ) : Timely later fun e => e.expired later = false :=
  ⟨fun _ _ => Iff.rfl, fun _ h => h⟩

section Timely

variable {now later : ℤ} {R : Entry → Prop} (h : Timely later R)
include h

/-- Looking at the store before the time neither adds nor loses such an item. -/
theorem Timely.looks_iff {old new : Option LruItem} (hlooks : Looks now old new)
    (hle : now ≤ later) : Has R new ↔ Has R old := by
  cases hlooks with
  | same => exact Iff.rfl
  | flushed it =>
    obtain ⟨blob, hblob⟩ := it.entry_flush
    have hsame : R it.flush.1.entry ↔ R it.entry := by rw [hblob, h.value]
    simp [Has, hsame]
  | expired it hx =>
    refine iff_of_false (by simp [Has]) ?_
    rintro ⟨_, heq, hR⟩
    cases heq
    rw [Entry.expired_of_le hle (h.unexpired _ hR)] at hx
    cases hx

/-- Whatever follows from there being such an item is kept. -/
theorem Timely.tidy (hle : now ≤ later) (P : Prop) : Tidy now fun old => Has R old ↔ P where
  flush := fun it hP => (h.looks_iff (.flushed it) hle).trans hP
  expire := fun it hx hP => (h.looks_iff (.expired it hx) hle).trans hP

end Timely

section Minted

variable {key : Bytes} {ks : KsRuntime} {now later : ℤ}

/-- Looking early does not change which version is stored later. -/
@[simp]
theorem env_get : (ks.get now key).1.store.env later = ks.store.env later :=
  Memory.perform_env _ _ _ _ _

@[simp]
theorem env_peek : (ks.peek now key).1.store.env later = ks.store.env later :=
  Memory.perform_env _ _ _ _ _

theorem storedVersion_looks {old new : Option LruItem} (h : Looks now old new)
    (hle : now ≤ later) : storedVersion later new = storedVersion later old := by
  cases h with
  | same => rfl
  | flushed it =>
    obtain ⟨blob, hblob⟩ := it.entry_flush
    simp only [storedVersion, hblob]
    rfl
  | expired it hx =>
    cases hlater : it.entry.expired later with
    | true => simp [storedVersion, hlater]
    | false =>
      rw [Entry.expired_of_le hle hlater] at hx
      cases hx

theorem counter_get (hle : now ≤ later) :
    (ks.get now key).1.counter later key = ks.counter later key :=
  congrArg (max (ks.tracked key)) (storedVersion_looks (looks_get ks now key key) hle)

theorem counter_flight {t : Times} (ht : t.Ordered) :
    ((ks.get t.first key).1.get t.flight key).1.counter t.load.mint key =
      ks.counter t.load.mint key := by
  obtain ⟨hfirst, hflight, hlook, -⟩ := ht
  rw [counter_get (hflight.trans hlook), counter_get ((hfirst.trans hflight).trans hlook)]

theorem counter_peek (hle : now ≤ later) :
    (ks.peek now key).1.counter later key = ks.counter later key :=
  congrArg (max (ks.tracked key)) (storedVersion_looks (looks_peek ks now key key) hle)

/-- A freshly minted version is refused exactly when it wrapped and an unexpired entry is there. -/
theorem outdated_mint_iff (hle : now ≤ later) (hver : ks.counter now key < 2 ^ 64) (walk : Walk)
    {e : Entry} (he : e.version = (ks.nextVersion now walk key 0).2) :
    Outdated (ks.nextVersion now walk key 0).1.store later key e ↔ ks.counter now key + 1 = 2 ^ 64 ∧
        Has (fun e => e.expired later = false) (ks.store.lookup key) := by
  rw [← ((timely_unexpired later).tidy hle _).nextVersion walk key 0 ks Iff.rfl]
  constructor
  · rintro ⟨it, hit, hx, hnew⟩
    refine ⟨?_, it, hit, hx⟩
    by_contra hne
    rw [he] at hnew
    exact absurd hnew (Nat.not_le.mpr (below_nextVersion (by omega) walk it hit))
  · rintro ⟨hwrap, it, hit, hx⟩
    refine ⟨it, hit, hx, ?_⟩
    rw [he, nextVersion_version, Nat.max_zero, bump, hwrap, Nat.mod_self]
    exact Nat.zero_le _

end Minted

end LoadCalls

end Supercache
