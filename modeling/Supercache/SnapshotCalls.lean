import Supercache.SnapshotReplication

/-!
The eight modes that replicate by snapshots: list, JSON, bitmap, HyperLogLog,
TopK, Count-Min, vector set and stream, each with its mutations, its install and
what the owner does in between. Convergence holds for all of them as long as
versions do not wrap.
-/
namespace Supercache.SnapshotReplication

open Wire Lru Announce Latest Owner Replica

section Effects

variable {flag : ℕ} {checks : Bool} {ready : Bytes → Bool} {T : ℤ} {old : Option LruItem}

/-- Nothing changes and the call returns. -/
theorem Effect.stop (hheld : Held flag T old) : Effect flag checks ready T old old .stop :=
  .idle old .stop hheld rfl (by simp) (by simp)

theorem Effect.probe (hheld : Held flag T old) : Effect flag checks ready T old old .probe :=
  .idle old .probe hheld rfl (by simp) (by simp)

variable {it : LruItem} {version : ℕ}

theorem held_some (hflags : it.entry.flags = flag) (hlasts : Entry.Lasts T it.entry.expireAt)
    (hbacked : it.l.Backed) : Held flag T (some it) := by
  intro it' heq
  obtain rfl := Option.some.inj heq
  exact ⟨hflags, hlasts, hbacked⟩

/-- A held item is unexpired, no tombstone, and of the mode. -/
theorem Held.live {now : ℤ} (h : Held flag T (some it)) (hnow : now < T)
    (htomb : (flag &&& flagTombstone != 0) = false) (hself : (flag &&& flag != 0) = true) :
    it.entry.expired now = false ∧ it.entry.isTombstone = false ∧ it.entry.has flag = true :=
  ⟨h.unexpired hnow, (Entry.has_of_flags (h it rfl).1 _).trans htomb,
    (Entry.has_of_flags (h it rfl).1 _).trans hself⟩

/-- A read of the entry alone changes nothing. -/
theorem Held.readLive_result {env : Env} {ρ : Type} {miss : ρ} {f : Entry → ρ}
    (h : Held flag T old) (hnow : env.now < T) (htomb : (flag &&& flagTombstone != 0) = false)
    (hself : (flag &&& flag != 0) = true) :
    (Store.readLive flag miss f env old).act.result old = old := by
  cases old with
  | none => rfl
  | some it =>
    obtain ⟨hx, ht, hhas⟩ := h.live hnow htomb hself
    simp only [Store.readLive, entry, hx, ht, hhas, Bool.false_eq_true, if_false, Bool.not_true,
      or_self]
    rfl

/-- An install that turns away what is not newer keeps the latest. -/
theorem Held.installed {new : LruItem} {blob : Bytes} (hheld : Held flag T old)
    (hnew : Held flag T (some new)) (hview : view (some new) = some (version, blob))
    {result : Option LruItem} (hnone : old = .none → result = some new)
    (hsome : ∀ it, old = some it →
      result = if version ≤ it.entry.version then some it else some new) :
    Held flag T result ∧ view result = latest Prod.fst (view old) (version, blob) := by
  cases old with
  | none =>
    rw [hnone rfl]
    exact ⟨hnew, hview⟩
  | some it =>
    rw [hsome it rfl]
    by_cases hle : version ≤ it.entry.version
    · rw [if_pos hle]
      exact ⟨hheld, (if_neg (Nat.not_lt.mpr hle)).symm⟩
    · rw [if_neg hle]
      exact ⟨hnew, hview.trans (if_pos (Nat.not_le.mp hle)).symm⟩

end Effects

structure PlainFlag (flag : ℕ) : Prop where
  pinned : flag ∈ Entry.pinnedFlags
  self : (flag &&& flag != 0) = true
  tombstone : (flag &&& flagTombstone != 0) = false
  set : (flag &&& flagSet != 0) = false
  z : (flag &&& flagZSet != 0) = false
  g : (flag &&& flagGeo != 0) = false
  l : (flag &&& flagList != 0) = false
  h : (flag &&& flagHash != 0) = false
  j : (flag &&& flagJSON != 0) = false

namespace PlainFlag

variable {flag : ℕ} (hflag : PlainFlag flag) {T : ℤ} {checks : Bool} {ready : Bytes → Bool}
  {env : Env} {old : Option LruItem} {expire : ℤ}
include hflag

variable {it : LruItem} {blob : Bytes} {ρ : Type} {miss : ρ} {f : Entry → ρ} {version : ℕ}

/-- Nothing of a plain mode is ever pending. -/
theorem settled (hflags : it.entry.flags = flag) : it.Settled := by
  have hhas := Entry.has_of_flags hflags
  exact ⟨setKind.pending_of_not_has ((hhas _).trans hflag.set),
    zKind.pending_of_not_has ((hhas _).trans hflag.z),
    gKind.pending_of_not_has ((hhas _).trans hflag.g),
    lKind.pending_of_not_has ((hhas _).trans hflag.l),
    hKind.pending_of_not_has ((hhas _).trans hflag.h), it.json_settled ((hhas _).trans hflag.j)⟩

theorem view_eq (hflags : it.entry.flags = flag) :
    view (some it) = some (it.entry.version, it.entry.value) := by
  rw [view, (hflag.settled hflags).flush]

theorem live (hheld : Held flag T (some it)) (hnow : env.now < T) :
    it.entry.expired env.now = false ∧ it.entry.isTombstone = false ∧ it.entry.has flag = true :=
  hheld.live hnow hflag.tombstone hflag.self

/-- What a mutation writes over a held item. -/
theorem wrote (hheld : Held flag T (some it)) (hexp : Entry.Lasts T expire)
    (hready : ready blob = true) {next : Next}
    (hnext : next = .announce ∨ next = .check ∧ checks = true) :
    Effect flag checks ready T (some it)
      (some (put it (Store.rewritten it.entry blob (bump it.entry.version) flag expire))) next := by
  obtain ⟨-, hlasts, hbacked⟩ := hheld it rfl
  refine .wrote _ _ (held_some rfl (hlasts.extend hexp) hbacked) rfl ?_ hnext
  rw [LruItem.Settled.flush (hflag.settled rfl)]
  exact hready

/-- The mutations of the plain modes. -/
theorem mutate_effect (checks : Bool) (ready : Bytes → Bool) (op : Option Bytes → Store.Outcome ρ)
    (refused : ρ) (next : ρ → Next) (hnow : env.now < T) (hheld : Held flag T old)
    (hexp : Entry.Lasts T expire) (hrefuse : ∀ cur r, op cur = .refuse r → next r = .stop)
    (hcommit : ∀ cur blob r, op cur = .commit blob r →
      ready blob = true ∧ next (r true) = .announce) (key : Bytes) (gate : ℕ) :
    let plan := (Store.mutatePlain flag key gate expire refused op).map next env old
    Effect flag checks ready T old (plan.act.result old)
      (plan.ret (plan.act.result old).isSome) := by
  cases old with
  | none =>
    simp only [Verb.map, Store.mutatePlain]
    cases hop : op none with
    | refuse r =>
      simp only [Plan.drop, Act.result, hrefuse none r hop]
      exact .stop hheld
    | commit blob r =>
      obtain ⟨hready, hnext⟩ := hcommit none blob r hop
      simp only [Act.result, Option.isSome_some, hnext]
      refine .wrote _ _ (held_some rfl hexp (by simp [Slot.Backed, fresh, LruItem.new, Slot.clear]))
        rfl ?_ (Or.inl rfl)
      rw [LruItem.Settled.flush (hflag.settled rfl)]
      exact hready
  | some it =>
    obtain ⟨hx, ht, hhas⟩ := hflag.live hheld hnow
    simp only [Verb.map, Store.mutatePlain, entry, hx, ht, hhas, Bool.false_eq_true, if_false,
      if_true]
    cases hop : op (some it.entry.value) with
    | refuse r =>
      simp only [Plan.skip, Act.result, hrefuse _ r hop]
      exact .stop hheld
    | commit blob r =>
      obtain ⟨hready, hnext⟩ := hcommit _ blob r hop
      simp only [Store.writeOver, Act.result, Option.map_some, Option.isSome_some, hnext]
      exact hflag.wrote hheld hexp hready (Or.inl rfl)

/-- The owner goes on after a removal only if the name is there. -/
theorem remove_effect {op : Bytes → Option Bytes} (hnow : env.now < T) (hheld : Held flag T old)
    (hexp : Entry.Lasts T expire) (hchecks : checks = true)
    (hop : ∀ cur blob, op cur = some blob → ready blob = true) (key : Bytes) (gate : ℕ) :
    let plan := (Store.removePlain flag key gate expire op).map
      (fun ok => if ok then Next.check else .stop) env old
    Effect flag checks ready T old (plan.act.result old)
      (plan.ret (plan.act.result old).isSome) := by
  cases old with
  | none => exact .idle none .check hheld rfl (fun _ => ⟨hchecks, rfl⟩) (by simp)
  | some it =>
    obtain ⟨hx, ht, hhas⟩ := hflag.live hheld hnow
    simp only [Verb.map, Store.removePlain, entry, hx, ht, hhas, Bool.false_eq_true, if_false,
      Bool.not_true]
    cases hblob : op it.entry.value with
    | none => exact .stop hheld
    | some blob =>
      simp only [Store.writeOver, Act.result, Option.map_some]
      exact hflag.wrote hheld hexp (hop _ _ hblob) (Or.inr ⟨rfl, hchecks⟩)

theorem readLive_result (hnow : env.now < T) (hheld : Held flag T old) :
    (Store.readLive flag miss f env old).act.result old = old :=
  hheld.readLive_result hnow hflag.tombstone hflag.self

theorem readLive_ret (hnow : env.now < T) (hheld : Held flag T (some it)) (still : Bool) :
    (Store.readLive flag miss f env (some it)).ret still = f it.entry := by
  obtain ⟨hx, ht, hhas⟩ := hflag.live hheld hnow
  simp only [Store.readLive, entry, hx, ht, hhas, Bool.false_eq_true, if_false, Bool.not_true,
    or_self]
  rfl

/-- An install behind a gate that turns away what is not newer. -/
theorem install_view {gate : Entry → Option Tally}
    (hgate : ∀ e, (gate e).isSome = decide (version ≤ e.version)) (hnow : env.now < T)
    (hheld : Held flag T old) (hexp : Entry.Lasts T expire) (key : Bytes) :
    let new := (Store.plainInstall gate flag key blob version expire env old).act.result old
    Held flag T new ∧ view new = latest Prod.fst (view old) (version, blob) := by
  have hnew : Held flag T (some (fresh ⟨blob, version, expire, flag⟩ : LruItem)) :=
    held_some rfl hexp (by simp [Slot.Backed, fresh, LruItem.new, Slot.clear])
  have hview : view (some (fresh ⟨blob, version, expire, flag⟩ : LruItem)) = some (version, blob) :=
    hflag.view_eq rfl
  refine hheld.installed hnew hview (fun hnone => by rw [hnone]; rfl) ?_
  rintro it rfl
  have hg := hgate it.entry
  simp only [Store.plainInstall, entry, hheld.unexpired hnow, Bool.false_eq_true, if_false]
  cases hout : gate it.entry with
  | some tally => rw [if_pos (by simpa [hout] using hg)]; rfl
  | none => rw [if_neg (by simpa [hout] using hg)]; rfl

theorem checkedInstall_view {ok : Bool} (hok : ok = true) (hnow : env.now < T)
    (hheld : Held flag T old) (hexp : Entry.Lasts T expire) (key : Bytes) :
    let new := (Store.checkedInstall ok flag key blob version expire env old).act.result old
    Held flag T new ∧ view new = latest Prod.fst (view old) (version, blob) := by
  simp only [Store.checkedInstall, hok, if_true]
  refine hflag.install_view (fun e => ?_) hnow hheld hexp key
  simp only [Store.installGate]
  split <;> simp_all

end PlainFlag

def afterPair (r : Bool × Bool) : Next :=
  if r.2 then .stop else if r.1 then .announce else .stop

variable {maxValue : ℤ} {blob : Bytes}

theorem commitWithin_refuse {r : Bool × Bool} (h : Store.commitWithin maxValue blob = .refuse r) :
    afterPair r = .stop := by
  unfold Store.commitWithin at h
  split at h
  · obtain rfl := Store.Outcome.refuse.inj h
    rfl
  · simp at h

theorem commitWithin_commit {blob' : Bytes} {r : Bool → Bool × Bool}
    (h : Store.commitWithin maxValue blob = .commit blob' r) :
    blob' = blob ∧ afterPair (r true) = .announce := by
  unfold Store.commitWithin at h
  split at h
  · simp at h
  · obtain ⟨rfl, rfl⟩ := Store.Outcome.commit.inj h
    exact ⟨rfl, rfl⟩

section AddOnly

variable (flag : ℕ) (hflag : PlainFlag flag) (Call : Type)
  (mutate : Call → Bytes → ℕ → ℤ → Verb LruItem Next) (has : Verb LruItem Bool)
  (install : Bytes → Bytes → ℕ → ℤ → Verb LruItem Bool) (decodes : Bytes → Bool)

def addOnly
    (hmutate : ∀ {T : ℤ} {call : Call} {old : Option LruItem} {expire : ℤ} (env : Env)
      (key : Bytes) (gate : ℕ), env.now < T → Held flag T old → Entry.Lasts T expire →
      let plan := mutate call key gate expire env old
      Effect flag false (fun _ => true) T old (plan.act.result old)
        (plan.ret (plan.act.result old).isSome))
    (hhas : has = Store.readLive flag false fun _ => true)
    (hinstall : ∀ key blob version expire, install key blob version expire =
      Store.checkedInstall (decodes blob) flag key blob version expire) : SnapMode where
  flag := flag
  Call := Call
  mutate := mutate
  has := has
  checks := false
  snapshot _ := true
  install := install
  decodes := decodes
  ready _ := true
  Fits _ := True
  flag_pinned := hflag.pinned
  flag_self := hflag.self
  mutate_effect env key gate _ hnow hheld hexp := hmutate env key gate hnow hheld hexp
  has_view env hnow hheld := by
    rw [hhas, hflag.readLive_result hnow hheld]
    exact ⟨hheld, rfl⟩
  has_missing env still := by
    rw [hhas]
    rfl
  has_ready _ hchecks := absurd hchecks Bool.false_ne_true
  snapshot_ready _ _ := rfl
  snapshot_decodes _ _ := rfl
  install_view env key version hnow hheld hexp hdecodes := by
    rw [hinstall]
    exact hflag.checkedInstall_view hdecodes hnow hheld hexp key

end AddOnly

section Bitmap

structure BSet where
  offset : ℕ
  bit : Bool
  maxValue : ℤ

theorem bitmap_plain : PlainFlag flagBitmap := by constructor <;> decide

def bitmapMode : SnapMode :=
  addOnly flagBitmap bitmap_plain BSet
    (fun c key gate expire => (Store.bSet key c.offset c.bit gate expire c.maxValue).map afterPair)
    Store.hasBitmap Store.bInstall (fun _ => true)
    (by
      intro T c old expire env key gate hnow hheld hexp
      have hmutate := bitmap_plain.mutate_effect false (fun _ => true)
        (fun cur => Store.commitWithin c.maxValue (BitmapX.set (cur.getD []) c.offset c.bit))
        (false, false) afterPair hnow hheld hexp (fun _ _ h => commitWithin_refuse h)
        (fun _ _ _ h => ⟨rfl, (commitWithin_commit h).2⟩) key gate
      simp only [Verb.map, Store.bSet] at hmutate ⊢
      split
      · exact .stop hheld
      · split
        · exact .stop hheld
        · exact hmutate)
    rfl (fun _ _ _ _ => rfl)

end Bitmap

section HLL

structure HLLAdd where
  item : Bytes
  maxValue : ℤ

theorem hll_plain : PlainFlag flagHLL := by constructor <;> decide

def hllMode : SnapMode :=
  addOnly flagHLL hll_plain HLLAdd
    (fun c key gate expire => (Store.hllAdd key c.item gate expire c.maxValue).map afterPair)
    Store.hasHLL Store.hllInstall (fun blob => blob.length = HllX.denseSize)
    (by
      intro T c old expire env key gate hnow hheld hexp
      have hmutate := hll_plain.mutate_effect false (fun _ => true)
        (fun cur =>
          let work := cur.getD []
          let regs := if work.length = HllX.denseSize then work else HllX.new
          .commit (HllX.add regs c.item) fun still => (still, false))
        (false, false) afterPair hnow hheld hexp (fun _ _ h => by simp at h)
        (fun _ _ _ h => by
          obtain ⟨-, rfl⟩ := Store.Outcome.commit.inj h
          exact ⟨rfl, rfl⟩) key gate
      simp only [Verb.map, Store.hllAdd] at hmutate ⊢
      split
      · exact .stop hheld
      · exact hmutate)
    rfl (fun _ _ _ _ => rfl)

end HLL

section TopK

structure TopKAdd where
  item : Bytes
  maxValue : ℤ

theorem topk_plain : PlainFlag flagTopK := by constructor <;> decide

def topkMode (k : ℕ) : SnapMode :=
  addOnly flagTopK topk_plain TopKAdd
    (fun c key gate expire => (Store.topkAdd key c.item gate expire k c.maxValue).map afterPair)
    Store.hasTopK (fun key blob version expire => Store.topkInstall key blob version expire k)
    (fun blob => (TopKX.decode blob k).isSome)
    (by
      intro T c old expire env key gate hnow hheld hexp
      have hmutate := topk_plain.mutate_effect false (fun _ => true)
        (Store.topkApply c.item k c.maxValue) (false, false) afterPair hnow hheld hexp
        (fun _ _ h => by
          unfold Store.topkApply at h
          dsimp only at h
          split at h
          · obtain rfl := Store.Outcome.refuse.inj h
            rfl
          · exact commitWithin_refuse h)
        (fun _ _ _ h => by
          unfold Store.topkApply at h
          dsimp only at h
          split at h
          · simp at h
          · exact ⟨rfl, (commitWithin_commit h).2⟩) key gate
      simp only [Verb.map, Store.topkAdd] at hmutate ⊢
      split
      · exact .stop hheld
      · split
        · exact .stop hheld
        · exact hmutate)
    rfl (fun _ _ _ _ => rfl)

end TopK

section CMS

structure CMSIncr where
  item : Bytes
  n : ℕ
  maxValue : ℤ

theorem cms_plain : PlainFlag flagCMS := by constructor <;> decide

def cmsMode : SnapMode :=
  addOnly flagCMS cms_plain CMSIncr
    (fun c key gate expire => (Store.cmsIncr key c.item c.n gate expire c.maxValue).map afterPair)
    Store.hasCMS Store.cmsInstall (fun blob => blob.length = CmsX.denseSize)
    (by
      intro T c old expire env key gate hnow hheld hexp
      have hmutate := cms_plain.mutate_effect false (fun _ => true) (Store.cmsApply c.item c.n)
        (false, false) afterPair hnow hheld hexp
        (fun _ _ h => by
          unfold Store.cmsApply at h
          split at h
          · obtain rfl := Store.Outcome.refuse.inj h
            rfl
          · simp at h)
        (fun _ _ _ h => by
          unfold Store.cmsApply at h
          split at h
          · simp at h
          · obtain ⟨-, rfl⟩ := Store.Outcome.commit.inj h
            exact ⟨rfl, rfl⟩) key gate
      simp only [Verb.map, Store.cmsIncr] at hmutate ⊢
      split
      · exact .stop hheld
      · split
        · exact .stop hheld
        · exact hmutate)
    rfl (fun _ _ _ _ => rfl)

end CMS

section VectorSet

inductive VSetCall where
  | add (member : Bytes) (vec : List UInt32) (maxValue : ℤ)
  | rem (member : Bytes)

def afterRemove (ok : Bool) : Next := if ok then .check else .stop

def vsMutate (c : VSetCall) (key : Bytes) (gate : ℕ) (expire : ℤ) : Verb LruItem Next :=
  match c with
  | .add member vec maxValue => (Store.vAdd key member vec gate expire maxValue).map afterPair
  | .rem member => (Store.vRem key member gate expire).map afterRemove

def vsSnapshot (blob : Bytes) : Bool := blob.head? == some VecSet.prefixSnapshot

theorem vectorSet_plain : PlainFlag flagVectorSet := by constructor <;> decide

theorem vsSnapshot_encode (s : VecSet.VSet) : vsSnapshot s.encode = true := by
  simp [vsSnapshot, VecSet.VSet.encode]

variable {member : Bytes} {vec : List UInt32} {maxValue : ℤ} {cur : Option Bytes}

theorem vsApply_refuse {r : Bool × Bool} (h : Store.vsApply member vec maxValue cur = .refuse r) :
    afterPair r = .stop := by
  unfold Store.vsApply at h
  dsimp only at h
  split at h
  · obtain rfl := Store.Outcome.refuse.inj h
    rfl
  · split at h
    · obtain rfl := Store.Outcome.refuse.inj h
      rfl
    · split at h
      · obtain rfl := Store.Outcome.refuse.inj h
        rfl
      · exact commitWithin_refuse h

theorem vsApply_commit {blob : Bytes} {r : Bool → Bool × Bool}
    (h : Store.vsApply member vec maxValue cur = .commit blob r) :
    vsSnapshot blob = true ∧ afterPair (r true) = .announce := by
  unfold Store.vsApply at h
  dsimp only at h
  split at h
  · simp at h
  · split at h
    · simp at h
    · split at h
      · simp at h
      · obtain ⟨rfl, hnext⟩ := commitWithin_commit h
        exact ⟨vsSnapshot_encode _, hnext⟩

theorem vsSnapshot_decodes (blob : Bytes) (h : (VecSet.decodeSnapshot blob).isSome = true) :
    vsSnapshot blob = true := by
  unfold VecSet.decodeSnapshot at h
  split at h
  · split at h
    · simp at h
    next hp =>
      simpa [vsSnapshot] using hp
  · simp at h

def vectorSetMode : SnapMode where
  flag := flagVectorSet
  Call := VSetCall
  mutate := vsMutate
  has := Store.hasVectorSet
  checks := true
  snapshot := vsSnapshot
  install := Store.vsInstall
  decodes blob := (VecSet.decodeSnapshot blob).isSome
  ready := vsSnapshot
  Fits _ := True
  flag_pinned := vectorSet_plain.pinned
  flag_self := vectorSet_plain.self
  mutate_effect {T c old expire} env key gate _ hnow hheld hexp := by
    cases c with
    | add member vec maxValue =>
      have hmutate := vectorSet_plain.mutate_effect true vsSnapshot
        (Store.vsApply member vec maxValue) (false, false) afterPair hnow hheld hexp
        (fun _ _ h => vsApply_refuse h) (fun _ _ _ h => vsApply_commit h) key gate
      simp only [vsMutate, Verb.map, Store.vAdd] at hmutate ⊢
      split
      · exact .stop hheld
      · exact hmutate
    | rem member =>
      refine vectorSet_plain.remove_effect hnow hheld hexp rfl (fun cur blob h => ?_) key gate
      obtain ⟨s, -, rfl⟩ := Option.map_eq_some_iff.mp h
      exact vsSnapshot_encode _
  has_view {T old} env hnow hheld := by
    rw [Store.hasVectorSet, vectorSet_plain.readLive_result hnow hheld]
    exact ⟨hheld, rfl⟩
  has_missing _ _ := rfl
  has_ready _ _ hnow hheld _ still := vectorSet_plain.readLive_ret hnow hheld still
  snapshot_ready _ h := h
  snapshot_decodes := vsSnapshot_decodes
  install_view env key version hnow hheld hexp hdecodes :=
    vectorSet_plain.checkedInstall_view hdecodes hnow hheld hexp key

end VectorSet

section Stream

inductive StreamCall where
  | add (payload : Bytes) (maxValue autoTrim : ℤ) (nowMilli : ℕ)
  | del (id : Bytes)
  | trim (maxLen : ℤ)

def StreamCall.Fits : StreamCall → Prop
  | .add payload _ _ nowMilli => payload.length < 2 ^ 64 ∧ nowMilli < 2 ^ 64
  | _ => True

def afterAdd (x : Store.XAdded) : Next :=
  if x.tooLarge then .stop else if x.full then .stop else if x.applied then .announce else .stop

def sxMutate (c : StreamCall) (key : Bytes) (gate : ℕ) (expire : ℤ) : Verb LruItem Next :=
  match c with
  | .add payload maxValue autoTrim nowMilli =>
    (Store.xAdd key payload gate expire maxValue autoTrim nowMilli).map afterAdd
  | .del id => (Store.xDel key id gate expire).map afterRemove
  | .trim maxLen => (Store.xTrim key maxLen gate expire).map afterRemove

def sxSnapshot (blob : Bytes) : Bool := blob.head? == some Stream.prefixSnapshot

def sxReady (blob : Bytes) : Bool := (Stream.decodeSnapshot blob).isSome

theorem stream_plain : PlainFlag flagStream := by constructor <;> decide

theorem sxReady_encode {lg : Stream.Log} (hlg : lg.Valid) : sxReady lg.encode = true := by
  rw [sxReady, Stream.decodeSnapshot_encode hlg]
  rfl

variable {payload : Bytes} {maxValue autoTrim : ℤ} {nowMilli : ℕ} {cur : Option Bytes}

theorem sxApply_refuse {r : Store.XAdded}
    (h : Store.sxApply payload maxValue autoTrim nowMilli cur = .refuse r) :
    afterAdd r = .stop := by
  unfold Store.sxApply at h
  dsimp only at h
  split at h
  · obtain rfl := Store.Outcome.refuse.inj h
    rfl
  · split at h
    · obtain rfl := Store.Outcome.refuse.inj h
      rfl
    · split at h
      · obtain rfl := Store.Outcome.refuse.inj h
        rfl
      · simp at h

theorem sxApply_commit {blob : Bytes} {r : Bool → Store.XAdded} (hpayload : payload.length < 2 ^ 64)
    (hmilli : nowMilli < 2 ^ 64)
    (h : Store.sxApply payload maxValue autoTrim nowMilli cur = .commit blob r) :
    sxReady blob = true ∧ afterAdd (r true) = .announce := by
  obtain ⟨id, lg, hvalid, rfl, rfl⟩ := Store.valid_of_sxApply hpayload hmilli h
  exact ⟨sxReady_encode hvalid, rfl⟩

theorem sxSnapshot_decodes (blob : Bytes) (h : (Stream.decodeSnapshot blob).isSome = true) :
    sxSnapshot blob = true := by
  unfold Stream.decodeSnapshot at h
  split at h
  · simp at h
  · split at h
    · simp at h
    next hp =>
      simpa [sxSnapshot] using hp

def streamMode : SnapMode where
  flag := flagStream
  Call := StreamCall
  mutate := sxMutate
  has := Store.hasStream
  checks := true
  snapshot := sxSnapshot
  install := Store.sxInstall
  decodes := sxReady
  ready := sxReady
  Fits := StreamCall.Fits
  flag_pinned := stream_plain.pinned
  flag_self := stream_plain.self
  mutate_effect {T c old expire} env key gate hfits hnow hheld hexp := by
    cases c with
    | add payload maxValue autoTrim nowMilli =>
      exact stream_plain.mutate_effect true sxReady
        (Store.sxApply payload maxValue autoTrim nowMilli) ⟨[], false, false, false⟩ afterAdd hnow
        hheld hexp (fun _ _ h => sxApply_refuse h)
        (fun _ _ _ h => sxApply_commit hfits.1 hfits.2 h) key gate
    | del id =>
      simp only [sxMutate, Verb.map, Store.xDel]
      split
      · exact .stop hheld
      next ms seq _ =>
        refine stream_plain.remove_effect hnow hheld hexp rfl (fun cur blob h => ?_) key gate
        obtain ⟨lg, hlg, rfl⟩ := Option.map_eq_some_iff.mp h
        exact sxReady_encode ((Stream.valid_of_decodeSnapshot hlg).del ms seq)
    | trim maxLen =>
      simp only [sxMutate, Verb.map, Store.xTrim]
      split
      · exact .stop hheld
      · refine stream_plain.remove_effect hnow hheld hexp rfl (fun cur blob h => ?_) key gate
        obtain ⟨lg, hlg, rfl⟩ := Option.map_eq_some_iff.mp h
        exact sxReady_encode ((Stream.valid_of_decodeSnapshot hlg).trim maxLen)
  has_view {T old} env hnow hheld := by
    rw [Store.hasStream, stream_plain.readLive_result hnow hheld]
    exact ⟨hheld, rfl⟩
  has_missing _ _ := rfl
  has_ready {T it} env _ hnow hheld hready still := by
    rw [(stream_plain.settled (hheld it rfl).1).flush] at hready
    exact (stream_plain.readLive_ret hnow hheld still).trans hready
  snapshot_ready := sxSnapshot_decodes
  snapshot_decodes := sxSnapshot_decodes
  install_view {T old blob expire} env key version hnow hheld hexp hdecodes := by
    simp only [Store.sxInstall, show (Stream.decodeSnapshot blob).isSome = true from hdecodes,
      if_true]
    refine stream_plain.install_view (fun e => ?_) hnow hheld hexp key
    split <;> simp_all

end Stream

section List

inductive ListCall where
  | lPush (item : Bytes)
  | rPush (item : Bytes)
  | lPop
  | rPop

def afterPush (ok : Bool) : Next := if ok then .announce else .stop

def afterPop (r : Option Bytes × Bool) : Next :=
  if !r.2 then .probe else if r.1.isSome then .announce else .stop

def lMutate (c : ListCall) (key : Bytes) (gate : ℕ) (expire : ℤ) : Verb LruItem Next :=
  match c with
  | .lPush item => (Store.lPush key item gate expire).map afterPush
  | .rPush item => (Store.rPush key item gate expire).map afterPush
  | .lPop => (Store.lPop key gate expire).map afterPop
  | .rPop => (Store.rPop key gate expire).map afterPop

variable {T : ℤ} {env : Env} {old : Option LruItem} {expire : ℤ}

variable {it : LruItem}

/-- A list whose cache is not ahead has nothing pending. -/
theorem list_settled (hflags : it.entry.flags = flagList) (hclean : it.l.dirty = false) :
    it.Settled := by
  have hhas := Entry.has_of_flags hflags
  exact ⟨setKind.pending_of_not_has (hhas _), zKind.pending_of_not_has (hhas _),
    gKind.pending_of_not_has (hhas _), lKind.pending_of_clean hclean,
    hKind.pending_of_not_has (hhas _), it.json_settled (hhas _)⟩

/-- A cached list ahead of the bytes, under the next version. -/
theorem list_wrote (hheld : Held flagList T (some it)) (hexp : Entry.Lasts T expire)
    (l : ListX.Items) : Effect flagList false (fun _ => true) T (some it) (some (lKind.setSlot
        { it with entry := lKind.touched it.entry (bump it.entry.version) expire } ⟨some l, true⟩))
      .announce :=
  .wrote _ _ (held_some rfl ((hheld it rfl).2.1.extend hexp) (fun _ => by simp [lKind])) rfl rfl
    (Or.inl rfl)

/-- The pushes of a list. -/
theorem push_effect (push : ListX.Items → ListX.Items) (hnow : env.now < T)
    (hheld : Held flagList T old) (hexp : Entry.Lasts T expire) (key : Bytes) (gate : ℕ) :
    let plan := (lKind.mutate key gate expire Store.nextStored fun l => some (push l)).map
      afterPush env old
    Effect flagList false (fun _ => true) T old (plan.act.result old)
      (plan.ret (plan.act.result old).isSome) := by
  cases old with
  | none =>
    exact .wrote _ _ (held_some rfl hexp (fun h => absurd h Bool.false_ne_true)) rfl rfl
      (Or.inl rfl)
  | some it =>
    obtain ⟨hx, ht, hhas⟩ := hheld.live hnow rfl rfl
    cases hload : lKind.load it with
    | none =>
      simp only [Verb.map, Kind.mutate, hx, ht, hload, Bool.false_eq_true, if_false, if_true,
        show it.entry.has lKind.flag = true from hhas]
      exact .stop hheld
    | some l =>
      simp only [Verb.map, lKind.mutate_of_live key gate expire Store.nextStored _ hx ht hhas hload]
      exact list_wrote hheld hexp (push l)

theorem pop_effect (pop : ListX.Items → Option (Bytes × ListX.Items)) (hnow : env.now < T)
    (hheld : Held flagList T old) (hexp : Entry.Lasts T expire) (key : Bytes) (gate : ℕ) :
    let plan := (Store.popVerb key gate expire pop).map afterPop env old
    Effect flagList false (fun _ => true) T old (plan.act.result old)
      (plan.ret (plan.act.result old).isSome) := by
  cases old with
  | none => exact .stop hheld
  | some it =>
    obtain ⟨hx, ht, hhas⟩ := hheld.live hnow rfl rfl
    simp only [Verb.map, Store.popVerb, hx, ht, hhas, Bool.false_eq_true, if_false, Bool.not_true]
    cases hload : lKind.load it with
    | none => exact .probe hheld
    | some l =>
      dsimp only
      cases hpop : pop l with
      | none => exact .stop hheld
      | some r => exact list_wrote hheld hexp r.2

/-- Asking for a list may decode it, which nobody sees. -/
theorem hasList_view (hnow : env.now < T) (hheld : Held flagList T old) :
    Held flagList T ((Store.hasList env old).act.result old) ∧
      view ((Store.hasList env old).act.result old) = view old := by
  cases old with
  | none => exact ⟨hheld, rfl⟩
  | some it =>
    obtain ⟨hx, ht, hhas⟩ := hheld.live hnow rfl rfl
    obtain ⟨hflags, hlasts, hbacked⟩ := hheld it rfl
    simp only [Store.hasList, Kind.read, hx, ht, show it.entry.has lKind.flag = true from hhas,
      Bool.false_eq_true, if_false, Bool.not_true, or_self]
    cases hcache : (lKind.slot it).cache with
    | some l => exact ⟨hheld, rfl⟩
    | none =>
      cases hdec : lKind.decode it.entry.value with
      | none => exact ⟨hheld, rfl⟩
      | some l =>
        have hclean : it.l.dirty = false := by
          by_contra hdirty
          exact hbacked (by simpa using hdirty) hcache
        have hnew : (lKind.setSlot it ⟨some l, (lKind.slot it).dirty⟩).Settled :=
          list_settled hflags hclean
        refine ⟨held_some hflags hlasts (fun _ => by simp [lKind]), ?_⟩
        simp only [Act.result, Option.map_some, view]
        rw [hnew.flush, (list_settled hflags hclean).flush]
        rfl

/-- An install of a list keeps the newer of the two. -/
theorem lInstall_view {blob : Bytes} {version : ℕ} (hnow : env.now < T)
    (hheld : Held flagList T old) (hexp : Entry.Lasts T expire)
    (hdecodes : (ListX.decode blob).isSome = true) (key : Bytes) :
    let new := (Store.lInstall key blob version expire env old).act.result old
    Held flagList T new ∧ view new = latest Prod.fst (view old) (version, blob) := by
  obtain ⟨l, hl⟩ := Option.isSome_iff_exists.mp hdecodes
  have hnew : Held flagList T (some (lKind.itemOf ⟨blob, version, expire, flagList⟩ l)) :=
    held_some rfl hexp (fun h => absurd h Bool.false_ne_true)
  have hview : view (some (lKind.itemOf ⟨blob, version, expire, flagList⟩ l)) =
      some (version, blob) := by
    have hsettled : (lKind.itemOf ⟨blob, version, expire, flagList⟩ l).Settled :=
      list_settled rfl rfl
    rw [view, hsettled.flush]
    rfl
  have hdec : lKind.decode blob = some l := hl
  refine hheld.installed hnew hview ?_ ?_
  · rintro rfl
    simp only [Store.lInstall, Store.cachedInstall, hdec]
    rfl
  · rintro it rfl
    simp only [Store.lInstall, Store.cachedInstall, hheld.unexpired hnow, Bool.false_eq_true,
      if_false, hdec, Store.installGate]
    by_cases hle : version ≤ it.entry.version <;> simp [hle, Act.result, lKind]

def listMode : SnapMode where
  flag := flagList
  Call := ListCall
  mutate := lMutate
  has := Store.hasList
  checks := false
  snapshot _ := true
  install := Store.lInstall
  decodes blob := (ListX.decode blob).isSome
  ready _ := true
  Fits _ := True
  flag_pinned := by decide
  flag_self := by decide
  mutate_effect {T c old expire} env key gate _ hnow hheld hexp := by
    cases c with
    | lPush item => exact push_effect (fun l => ListX.lPush l item) hnow hheld hexp key gate
    | rPush item => exact push_effect (fun l => ListX.rPush l item) hnow hheld hexp key gate
    | lPop => exact pop_effect ListX.lPop hnow hheld hexp key gate
    | rPop => exact pop_effect ListX.rPop hnow hheld hexp key gate
  has_view _ hnow hheld := hasList_view hnow hheld
  has_missing _ _ := rfl
  has_ready _ hchecks := absurd hchecks Bool.false_ne_true
  snapshot_ready _ _ := rfl
  snapshot_decodes _ _ := rfl
  install_view _ key _ hnow hheld hexp hdecodes := lInstall_view hnow hheld hexp hdecodes key

end List

section Json

inductive JsonCall where
  | set (path value : Bytes) (maxValue : ℤ)
  | del (path : Bytes)

def afterDel (r : Bool × Bool) : Next :=
  if !r.1 then .stop else if r.2 then .announce else .stop

def jMutate (c : JsonCall) (key : Bytes) (gate : ℕ) (expire : ℤ) : Verb LruItem Next :=
  match c with
  | .set path value maxValue => (Store.jSet key path value gate expire maxValue).map afterPair
  | .del path => (Store.jDel key path gate expire).map afterDel

variable {T : ℤ} {env : Env} {old : Option LruItem} {expire : ℤ}

variable {it it' : LruItem}

theorem json_settled (hflags : it.entry.flags = flagJSON) (hclean : it.jDirty = false) :
    it.Settled := by
  have hhas := Entry.has_of_flags hflags
  exact ⟨setKind.pending_of_not_has (hhas _), zKind.pending_of_not_has (hhas _),
    gKind.pending_of_not_has (hhas _), lKind.pending_of_not_has (hhas _),
    hKind.pending_of_not_has (hhas _), by rw [hclean, Bool.false_and]⟩

/-- Looking at the document may cache it, which nobody sees. -/
theorem jDoc_held {doc : JsonText.Json} (hheld : Held flagJSON T (some it))
    (h : Store.jDoc it = some (doc, it')) :
    Held flagJSON T (some it') ∧ view (some it') = view (some it) ∧
      it'.entry.version = it.entry.version := by
  obtain ⟨rfl, rfl | ⟨hclean, -, -⟩⟩ := Store.jDoc_spec h
  · exact ⟨hheld, rfl, rfl⟩
  · obtain ⟨hflags, hlasts, hbacked⟩ := hheld it rfl
    have hnew : ({ it with jCache := doc } : LruItem).Settled := json_settled hflags hclean
    refine ⟨held_some hflags hlasts hbacked, ?_, rfl⟩
    rw [view, view, hnew.flush, (json_settled hflags hclean).flush]

/-- The document replaced, under the next version. -/
theorem json_wrote (hheld : Held flagJSON T (some it'))
    (hversion : it'.entry.version = it.entry.version) (hexp : Entry.Lasts T expire)
    (doc : JsonText.Json) : Effect flagJSON false (fun _ => true) T (some it)
      (some (Store.jReplaced it' doc (bump it'.entry.version) expire)) .announce := by
  obtain ⟨-, hlasts, hbacked⟩ := hheld it' rfl
  refine .wrote _ _ (held_some rfl (hlasts.extend hexp) hbacked) ?_ rfl (Or.inl rfl)
  rw [hversion]
  rfl

/-- Writes to a document. -/
theorem jSet_effect (path value : Bytes) (maxValue : ℤ) (hnow : env.now < T)
    (hheld : Held flagJSON T old) (hexp : Entry.Lasts T expire) (key : Bytes) (gate : ℕ) :
    let plan := (Store.jSet key path value gate expire maxValue).map afterPair env old
    Effect flagJSON false (fun _ => true) T old (plan.act.result old)
      (plan.ret (plan.act.result old).isSome) := by
  simp only [Verb.map, Store.jSet]
  split
  next val p _ _ =>
    cases old with
    | none =>
      dsimp only
      split
      · exact .stop hheld
      next doc _ =>
        unfold Store.jCommitInsert
        split
        · exact .stop hheld
        · exact .wrote _ _ (held_some rfl hexp (fun h => absurd h Bool.false_ne_true)) rfl rfl
            (Or.inl rfl)
    | some it =>
      obtain ⟨hx, ht, hhas⟩ := hheld.live hnow rfl rfl
      simp only [hx, ht, hhas, Bool.false_eq_true, if_false, Bool.not_true]
      cases hdoc : Store.jDoc it with
      | none => exact .stop hheld
      | some r =>
        obtain ⟨hheld', hview, hversion⟩ := jDoc_held hheld hdoc
        dsimp only
        split
        · exact .idle _ _ hheld' hview (by simp [afterPair]) (by simp [afterPair])
        · unfold Store.jCommitReplace
          split
          · exact .idle _ _ hheld' hview (by simp [afterPair]) (by simp [afterPair])
          · exact json_wrote hheld' hversion hexp _
  · exact .stop hheld

/-- Deletions from a document. -/
theorem jDel_effect (path : Bytes) (hnow : env.now < T) (hheld : Held flagJSON T old)
    (hexp : Entry.Lasts T expire) (key : Bytes) (gate : ℕ) :
    let plan := (Store.jDel key path gate expire).map afterDel env old
    Effect flagJSON false (fun _ => true) T old (plan.act.result old)
      (plan.ret (plan.act.result old).isSome) := by
  cases old with
  | none => exact .stop hheld
  | some it =>
    obtain ⟨hx, ht, hhas⟩ := hheld.live hnow rfl rfl
    simp only [Verb.map, Store.jDel, hx, ht, hhas, Bool.false_eq_true, if_false, Bool.not_true]
    cases JsonX.parsePath path with
    | none => exact .stop hheld
    | some p =>
      cases hdoc : Store.jDoc it with
      | none => exact .stop hheld
      | some r =>
        obtain ⟨hheld', hview, hversion⟩ := jDoc_held hheld hdoc
        dsimp only
        split
        · exact .idle _ _ hheld' hview (by simp [afterDel]) (by simp [afterDel])
        · exact json_wrote hheld' hversion hexp _

/-- An install of a document keeps the newer of the two. -/
theorem jInstall_view {blob : Bytes} {version : ℕ} (hnow : env.now < T)
    (hheld : Held flagJSON T old) (hexp : Entry.Lasts T expire)
    (hdecodes : (JsonX.decode blob).isSome = true) (key : Bytes) :
    let new := (Store.jInstall key blob version expire env old).act.result old
    Held flagJSON T new ∧ view new = latest Prod.fst (view old) (version, blob) := by
  obtain ⟨doc, hdoc⟩ := Option.isSome_iff_exists.mp hdecodes
  have hnew : Held flagJSON T (some (Store.jItem ⟨blob, version, expire, flagJSON⟩ doc)) :=
    held_some rfl hexp (fun h => absurd h Bool.false_ne_true)
  have hview : view (some (Store.jItem ⟨blob, version, expire, flagJSON⟩ doc)) =
      some (version, blob) := by
    have hsettled : (Store.jItem ⟨blob, version, expire, flagJSON⟩ doc).Settled :=
      json_settled rfl rfl
    rw [view, hsettled.flush]
    rfl
  simp only [Store.jInstall, hdoc]
  refine hheld.installed hnew hview (fun hnone => by rw [hnone]; rfl) ?_
  rintro it rfl
  simp only [hheld.unexpired hnow, Bool.false_eq_true, if_false, Store.installGate]
  by_cases hle : version ≤ it.entry.version <;> simp [hle, Act.result]

def jsonMode : SnapMode where
  flag := flagJSON
  Call := JsonCall
  mutate := jMutate
  has := Store.hasJSON
  checks := false
  snapshot _ := true
  install := Store.jInstall
  decodes blob := (JsonX.decode blob).isSome
  ready _ := true
  Fits _ := True
  flag_pinned := by decide
  flag_self := by decide
  mutate_effect {T c old expire} env key gate _ hnow hheld hexp := by
    cases c with
    | set path value maxValue => exact jSet_effect path value maxValue hnow hheld hexp key gate
    | del path => exact jDel_effect path hnow hheld hexp key gate
  has_view {T old} env hnow hheld := by
    rw [Store.hasJSON, hheld.readLive_result hnow rfl rfl]
    exact ⟨hheld, rfl⟩
  has_missing _ _ := rfl
  has_ready _ hchecks := absurd hchecks Bool.false_ne_true
  snapshot_ready _ _ := rfl
  snapshot_decodes _ _ := rfl
  install_view _ key _ hnow hheld hexp hdecodes := jInstall_view hnow hheld hexp hdecodes key

end Json

section Modes

inductive Mode where
  | list
  | json
  | bitmap
  | hll
  | topK (k : ℕ)
  | cms
  | vectorSet
  | stream

def Mode.protocol : Mode → SnapMode
  | list => listMode
  | json => jsonMode
  | bitmap => bitmapMode
  | hll => hllMode
  | topK k => topkMode k
  | cms => cmsMode
  | vectorSet => vectorSetMode
  | stream => streamMode

variable {key : Bytes} {ttl T : ℤ}

/-- Any number of calls of a mode, in any interleaving, that cannot use up the versions above
the stored one: once all are done and one of them wrote, a replica that starts with nothing or
with an earlier state and receives what the owner sent, in any order and any number of times,
ends with the owner's bytes and version. -/
theorem snapshots_converge (mode : Mode) {owner replica : KsRuntime}
    {threads : List (Thread mode.protocol)} {turns : List (Turn ℕ)} {arrivals : List Arrival}
    {now : ℤ} (howner : Held mode.protocol.flag T (owner.store.lookup key))
    (hfits : ∀ p ∈ threads, mode.protocol.Fits p.call) (hstart : ∀ p ∈ threads, p.stage = .start)
    (hroom : versionOf (view (owner.store.lookup key)) + threads.length < 2 ^ 64)
    (hturns : ∀ t ∈ turns, t.now < T ∧ Entry.Lasts T (expireAt t.now ttl))
    (hall : ∀ p ∈ (run key ttl ⟨owner, threads, []⟩ turns).threads, ∃ b, p.stage = .finished b)
    (hreplica : Held mode.protocol.flag T (replica.store.lookup key))
    (hearlier : ∀ w, view (replica.store.lookup key) = some w →
      ∃ w₀, view (owner.store.lookup key) = some w₀ ∧ w.1 ≤ w₀.1)
    (harrivals : ∀ a ∈ arrivals, a.now < T ∧ Entry.Lasts T (expireAt a.now ttl))
    (hsame : ∀ ent, ent ∈ arrivals.map Arrival.ent ↔
      ent ∈ (run key ttl ⟨owner, threads, []⟩ turns).sent)
    (hdecodes : ∀ ent ∈ (run key ttl ⟨owner, threads, []⟩ turns).sent,
      mode.protocol.decodes ent.value = true) (hnow : now < T)
    (hchanged : content (run key ttl ⟨owner, threads, []⟩ turns).ks.store now key ≠
      content owner.store now key) :
    ∃ c, content (run key ttl ⟨owner, threads, []⟩ turns).ks.store now key = some c ∧
      content (replicaRun mode.protocol.toReceiver key ttl replica arrivals).store now key =
      some c := by
  have horder := (WritesInOrder.start howner hfits hstart).run hroom hturns
  generalize hs : run key ttl ⟨owner, threads, []⟩ turns = s at *
  have hdone : ∀ q ∈ s.threads.map fun p => p.stage.phase, ∃ b, q = .done b :=
    List.forall_mem_map.mpr fun p hp => (hall p hp).imp fun b hb => by rw [hb]; rfl
  rw [content_of_held horder.held hnow, content_of_held howner hnow] at hchanged
  obtain ⟨c, hc, hmem, hlt, hle⟩ := horder.inv.final hdone hchanged
  have hin : ∀ a ∈ arrivals, a.ent ∈ s.sent := fun a ha =>
    (hsame a.ent).mp (List.mem_map_of_mem ha)
  obtain ⟨hheld, hview⟩ := replicaRun_view mode.protocol.toReceiver hreplica fun a ha =>
    ⟨(harrivals a ha).1, (harrivals a ha).2, horder.lasts _ (hin a ha), hdecodes _ (hin a ha)⟩
  have holder : ∀ w, view (replica.store.lookup key) = some w → w.1 < c.1 := by
    intro w hw
    obtain ⟨w₀, hw₀, hwle⟩ := hearlier w hw
    exact hwle.trans_lt (hlt w₀ hw₀)
  refine ⟨c, (content_of_held horder.held hnow).trans hc, ?_⟩
  rw [content_of_held hheld hnow, hview]
  exact newest_of_final hmem hle holder (mem_map_stamp hsame)

def listAt (version : ℕ) : KsRuntime :=
  ⟨((Memory.newMemory 0 0).perform 0 [0] (Store.lInstall [0] (ListX.encode []) version 0)).1,
    ∅, 100⟩

def pushes (items : List Bytes) : List (Thread Mode.list.protocol) :=
  items.map fun item => ⟨ListCall.rPush item, .start⟩

def turnsOf (order : List ℕ) : List (Turn ℕ) := order.map fun who => ⟨who, 1, ⟨[], []⟩⟩

def overlapping : List (Turn ℕ) := turnsOf [0, 0, 0, 1, 1, 0, 0, 0, 1, 1, 1, 1]

def overlappingSent : List Entry :=
  [⟨[1, 7, 1, 8], 5, 0, flagList⟩, ⟨[1, 7, 1, 8], 4, 0, flagList⟩]

theorem held_listAt (version : ℕ) : Held flagList 5 ((listAt version).store.lookup [0]) := by
  have hlook : (listAt version).store.lookup [0] =
      some (lKind.itemOf ⟨ListX.encode [], version, 0, flagList⟩ []) := rfl
  rw [hlook]
  exact held_some rfl (Or.inl rfl) nofun

/-- The first snapshot has the version of one state and the bytes of the next. -/
theorem snapshots_converge_overlapping :
    (run [0] 0 ⟨listAt 3, pushes [[7], [8]], []⟩ overlapping).sent = overlappingSent ∧
      ∃ c, content (run [0] 0 ⟨listAt 3, pushes [[7], [8]], []⟩ overlapping).ks.store 3 [0] =
      some c ∧
        content (replicaRun Mode.list.protocol.toReceiver [0] 0 (listAt 2)
          (overlappingSent.map fun ent => ⟨2, ⟨[], []⟩, ent⟩)).store 3 [0] = some c := by
  have hsent : (run [0] 0 ⟨listAt 3, pushes [[7], [8]], []⟩ overlapping).sent =
    overlappingSent := by
    decide +kernel
  have hstages : (run [0] 0 ⟨listAt 3, pushes [[7], [8]], []⟩ overlapping).threads.map
      (fun p => p.stage) = [.finished true, .finished true] := by decide +kernel
  refine ⟨hsent, snapshots_converge .list (held_listAt 3) (fun _ _ => trivial) ?_
    (by decide +kernel) ?_ ?_
    (held_listAt 2) ?_ ?_ ?_ ?_ (show (3 : ℤ) < 5 by decide) ?_⟩
  · intro p hp
    obtain ⟨item, -, rfl⟩ := List.mem_map.mp hp
    rfl
  · intro t ht
    obtain ⟨who, -, rfl⟩ := List.mem_map.mp ht
    exact ⟨show (1 : ℤ) < 5 by decide, Or.inl rfl⟩
  · intro p hp
    have hmem := List.mem_map_of_mem (f := fun p => p.stage) hp
    rw [hstages] at hmem
    exact ⟨true, by simpa using hmem⟩
  · intro w hw
    obtain rfl := Option.some.inj hw
    exact ⟨_, rfl, show 2 ≤ 3 by decide⟩
  · intro a ha
    obtain ⟨ent, -, rfl⟩ := List.mem_map.mp ha
    exact ⟨show (2 : ℤ) < 5 by decide, Or.inl rfl⟩
  · intro ent
    rw [hsent, List.map_map]
    simp
  · rw [hsent]
    decide +kernel
  · decide +kernel

/-- A push onto the last version wraps it to zero, which a replica takes for old. -/
theorem snapshot_ignored_after_wrap :
    (run [0] 0 ⟨listAt (2 ^ 64 - 1), pushes [[7]], []⟩ (turnsOf [0, 0, 0, 0, 0, 0])).sent =
        [⟨[1, 7], 0, 0, flagList⟩] ∧
      content (run [0] 0 ⟨listAt (2 ^ 64 - 1), pushes [[7]], []⟩
        (turnsOf [0, 0, 0, 0, 0, 0])).ks.store 3 [0] = some (0, [1, 7]) ∧
      content (replicaRun Mode.list.protocol.toReceiver [0] 0 (listAt (2 ^ 64 - 1))
        [⟨2, ⟨[], []⟩, ⟨[1, 7], 0, 0, flagList⟩⟩]).store 3 [0] = some (2 ^ 64 - 1, []) := by
  refine ⟨?_, ?_, ?_⟩ <;> decide +kernel

end Modes

end Supercache.SnapshotReplication
